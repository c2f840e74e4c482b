import MegaOS.Log.Console
import MegaOS.Log.Snprintf

/-!
# One text, four sinks

`sprintf` stores the text of a format, `kprintf`, `vprintf` and `dprintf` hand it
to `putchar`, `fctprintf` to a callback; all return its length. The last four
pass over NUL, which `%c` outputs for the argument 0 and nothing else does.
-/

namespace MegaOS.Log

open MegaOS.Memory MegaOS.Emission

/-- `vprintf` -/
def vprintf := printfFor .kernel

/-- `fctprintf`, for what the callback does to the state `arg` points to. -/
def fctprintf {σ : Type} (fct : Byte → σ → σ) (arg : σ) (format : List Byte) (va : List Arg) :
    Option (ℤ × σ) :=
  internalVsnprintf (outFct fct) sizeMax false format va arg

/-! ### The characters of a conversion -/

/-- The characters of an integer conversion and its padding. -/
def numeralChars : List Byte := "0123456789abcdefABCDEFxb+- ".toList.map ch

theorem digitChar_mem : ∀ (uppercase : Bool) (d : BitVec 8), d.toNat < 16 →
    digitChar uppercase d ∈ numeralChars := by
  decide

theorem forall_pushText {P : Byte → Prop} {c : Byte} {ds : List Byte} (hc : P c)
    (h : ∀ d ∈ ds, P d) : ∀ d ∈ pushText c ds, P d := by
  rw [pushText]
  split
  · exact List.forall_mem_append.mpr ⟨h, List.forall_mem_singleton.mpr hc⟩
  · exact h

theorem forall_padText {P : Byte → Prop} (hzero : P (ch '0')) (bound : ℕ) {ds : List Byte}
    (h : ∀ d ∈ ds, P d) : ∀ d ∈ padText bound ds, P d := by
  refine List.forall_mem_append.mpr ⟨h, ?_⟩
  intro d hd
  rw [List.eq_of_mem_replicate hd]
  exact hzero

theorem forall_leadingText {P : Byte → Prop} (hzero : P (ch '0')) (prec width : ℕ) (flags : Flags)
    {ds : List Byte} (h : ∀ d ∈ ds, P d) : ∀ d ∈ leadingText prec width flags ds, P d := by
  have hprec := forall_padText hzero prec h
  rw [leadingText]
  split
  · exact h
  split
  · exact forall_padText hzero width hprec
  · exact hprec

theorem forall_hashText {P : Byte → Prop} (hzero : P (ch '0')) (hx : P (ch 'x')) (hb : P (ch 'b'))
    (base : BitVec 32) (prec width : ℕ) (flags : Flags) {ds : List Byte} (h : ∀ d ∈ ds, P d) :
    ∀ d ∈ hashText base prec width flags ds, P d := by
  have hdrop : ∀ {l : List Byte}, (∀ d ∈ l, P d) → ∀ d ∈ l.dropLast, P d :=
    fun hl d hd => hl d (List.mem_of_mem_dropLast hd)
  have hroom : ∀ d ∈ roomText base prec width flags ds, P d := by
    rw [roomText]
    split
    · split
      · exact hdrop (hdrop h)
      · exact hdrop h
    · exact h
  have hletter : ∀ d ∈ letterText base (roomText base prec width flags ds), P d := by
    rw [letterText]
    split
    · exact forall_pushText hx hroom
    split
    · exact forall_pushText hb hroom
    · exact hroom
  rw [hashText]
  split
  · exact forall_pushText hzero hletter
  · exact h

theorem forall_signText {P : Byte → Prop} (hsigns : ∀ c ∈ [ch '-', ch '+', ch ' '], P c)
    (negative : Bool) (flags : Flags) {ds : List Byte} (h : ∀ d ∈ ds, P d) :
    ∀ d ∈ signText negative flags ds, P d := by
  rw [signText]
  split
  · exact forall_pushText (hsigns _ (by simp)) h
  split
  · exact forall_pushText (hsigns _ (by simp)) h
  split
  · exact forall_pushText (hsigns _ (by simp)) h
  · exact h

theorem forall_padded {P : Byte → Prop} (hspace : P (ch ' ')) (left : Bool) (n : ℕ)
    {text : List Byte} (h : ∀ c ∈ text, P c) : ∀ c ∈ padded left n text, P c := by
  have hpad : ∀ c ∈ List.replicate n (ch ' '), P c := by
    intro c hc
    rw [List.eq_of_mem_replicate hc]
    exact hspace
  rw [padded]
  split
  · exact List.forall_mem_append.mpr ⟨h, hpad⟩
  · exact List.forall_mem_append.mpr ⟨hpad, h⟩

theorem digitsText_mem {base : Word} (hpos : 0 < base.toNat) (hbase : base.toNat ≤ 16)
    (uppercase : Bool) (fuel : ℕ) (value : Word) :
    ∀ c ∈ digitsText base uppercase fuel value, c ∈ numeralChars := by
  induction fuel generalizing value with
  | zero => exact fun c hc => absurd hc List.not_mem_nil
  | succ fuel ih =>
    have hmod : (value % base).toNat < 16 := by
      rw [BitVec.toNat_umod]
      exact Nat.lt_of_lt_of_le (Nat.mod_lt _ hpos) hbase
    have hdigit : ((value % base).setWidth 8).toNat < 16 := by
      rw [BitVec.toNat_setWidth]
      exact Nat.lt_of_le_of_lt (Nat.mod_le _ _) hmod
    intro c hc
    rw [digitsText] at hc
    rcases List.mem_cons.mp hc with rfl | hc
    · exact digitChar_mem uppercase _ hdigit
    · split at hc
      · exact ih _ c hc
      · exact absurd hc List.not_mem_nil

/-- **Alphabet.** An integer conversion outputs digits, prefixes, signs and spaces only. -/
theorem ntoaText_mem {base : Word} (hpos : 0 < base.toNat) (hbase : base.toNat ≤ 16) (value : Word)
    (negative : Bool) (prec width : ℕ) (flags : Flags) :
    ∀ c ∈ ntoaText value negative base prec width flags, c ∈ numeralChars := by
  have hdigits : ∀ fl : Flags, ∀ c ∈ convertText value base fl, c ∈ numeralChars := by
    intro fl
    rw [convertText]
    split
    · exact digitsText_mem hpos hbase _ _ _
    · exact fun c hc => absurd hc List.not_mem_nil
  rw [ntoaText, revText]
  refine forall_padded (by decide) _ _ ?_
  intro c hc
  refine forall_signText (by decide) _ _ ?_ c (List.mem_reverse.mp hc)
  refine forall_hashText (by decide) (by decide) (by decide) _ _ _ _ ?_
  exact forall_leadingText (by decide) _ _ _ (hdigits _)

theorem baseOf_pos_le (k : IntegerSpecifier) :
    0 < (baseOf k.byte).toNat ∧ (baseOf k.byte).toNat ≤ 16 := by
  cases k <;> decide

theorem zero_notMem_numeralChars : (0 : Byte) ∉ numeralChars := by decide

theorem zero_notMem_cString (p : List Byte) : 0 ∉ cString p := by
  induction p with
  | nil => exact List.not_mem_nil
  | cons c p ih =>
    by_cases hc : c = 0
    · rw [cString, if_pos hc]
      exact List.not_mem_nil
    · rw [cString_cons hc, List.mem_cons, not_or]
      exact ⟨Ne.symm hc, ih⟩

theorem mem_padded {c : Byte} (hc : c ≠ ch ' ') (left : Bool) (n : ℕ) (text : List Byte) :
    c ∈ padded left n text ↔ c ∈ text := by
  have hpad : c ∉ List.replicate n (ch ' ') := fun h => hc (List.eq_of_mem_replicate h)
  rw [padded]
  split
  · rw [List.mem_append, or_iff_left hpad]
  · rw [List.mem_append, or_iff_right hpad]

/-! ### Where NUL comes from -/

/-- The argument that a directive outputs as a character. -/
def Directive.characterArg (d : Directive) (va : List Arg) : Option Arg :=
  match d.specifier with
  | .character => va[d.kinds.length - 1]?
  | _ => none

/-- The arguments of a format that are output as characters. -/
def characterArgs : List Item → List Arg → List Arg
  | [], _ => []
  | .literal _ :: items, va => characterArgs items va
  | .directive d :: items, va =>
    (d.characterArg va).toList ++ characterArgs items (va.drop d.kinds.length)

/-- The arguments of the stars are taken first. -/
theorem Directive.resolve_args {d : Directive} {va va' : List Arg} {s : Spec}
    (h : d.resolve va = some (s, va')) :
    va' = va.drop (d.width.kinds ++ d.precision.kinds).length := by
  obtain ⟨flags, va₁, hw, hp, -⟩ := Directive.resolve_spec h
  rw [(Precision.resolve_spec hp).1, (Width.resolve_spec hw).1, List.drop_drop, List.length_append]

/-- A specifier takes its argument from the front, and outputs a NUL only for `%c`. -/
theorem Specifier.text_spec {sp : Specifier} {s : Spec} {va va' : List Arg} {text : List Byte}
    (h : sp.text s va = some (text, va')) :
    va' = va.drop sp.kinds.length ∧
      (0 ∈ text ↔ sp = .character ∧ ∃ a ∈ va.head?, a.int.setWidth 8 = (0 : Byte)) := by
  have hno : ∀ {t : List Byte}, sp ≠ .character → 0 ∉ t →
      (0 ∈ t ↔ sp = .character ∧ ∃ a ∈ va.head?, a.int.setWidth 8 = (0 : Byte)) :=
    fun hsp ht => iff_of_false ht fun hc => hsp hc.1
  have hnumeral : ∀ {t : List Byte}, (∀ c ∈ t, c ∈ numeralChars) → 0 ∉ t :=
    fun ht h0 => zero_notMem_numeralChars (ht 0 h0)
  cases sp with
  | percent =>
    obtain ⟨rfl, rfl⟩ := Prod.mk.inj (Option.some.inj h)
    exact ⟨rfl, hno (fun hsp => (by cases hsp)) (by decide)⟩
  | integer k =>
    cases va with
    | nil => exact absurd h.symm (Option.some_ne_none _)
    | cons a va =>
      obtain ⟨rfl, rfl⟩ := Prod.mk.inj (Option.some.inj h)
      obtain ⟨hpos, hle⟩ := baseOf_pos_le k
      exact ⟨rfl, hno (fun hsp => (by cases hsp)) (hnumeral (ntoaText_mem hpos hle _ _ _ _ _))⟩
  | character =>
    cases va with
    | nil => exact absurd h.symm (Option.some_ne_none _)
    | cons a va =>
      obtain ⟨rfl, rfl⟩ := Prod.mk.inj (Option.some.inj h)
      refine ⟨rfl, ?_⟩
      rw [characterText, mem_padded (by decide), List.mem_singleton]
      simp only [List.head?_cons, Option.mem_some_iff, true_and, exists_eq_left']
      exact eq_comm
  | string =>
    cases va with
    | nil => exact absurd h.symm (Option.some_ne_none _)
    | cons a va =>
      rw [Specifier.text] at h
      split at h
      · obtain ⟨rfl, rfl⟩ := Prod.mk.inj (Option.some.inj h)
        refine ⟨rfl, hno (fun hsp => (by cases hsp)) ?_⟩
        rw [stringText, mem_padded (by decide)]
        split
        · exact fun h0 => zero_notMem_cString _ (List.mem_of_mem_take h0)
        · exact zero_notMem_cString _
      · exact absurd h.symm (Option.some_ne_none _)
  | pointer =>
    cases va with
    | nil => exact absurd h.symm (Option.some_ne_none _)
    | cons a va =>
      obtain ⟨rfl, rfl⟩ := Prod.mk.inj (Option.some.inj h)
      exact ⟨rfl, hno (fun hsp => (by cases hsp))
        (hnumeral (ntoaText_mem (by decide) (by decide) _ _ _ _ _))⟩

theorem Directive.text_spec {d : Directive} {va va' : List Arg} {text : List Byte}
    (h : d.text va = some (text, va')) :
    va' = va.drop d.kinds.length ∧
      (0 ∈ text ↔ ∃ a ∈ d.characterArg va, a.int.setWidth 8 = (0 : Byte)) := by
  simp only [Directive.text, Option.bind_eq_bind, Option.bind_eq_some_iff] at h
  obtain ⟨⟨s, va₁⟩, hres, htext⟩ := h
  obtain ⟨hva', hzero⟩ := Specifier.text_spec htext
  have hva₁ := Directive.resolve_args hres
  refine ⟨?_, ?_⟩
  · rw [hva', hva₁, List.drop_drop, Directive.kinds]
    simp only [List.length_append, Nat.add_assoc]
  · rw [hzero, Directive.characterArg, hva₁, List.head?_drop, Directive.kinds]
    cases hsp : d.specifier with
    | character =>
      have hlen : (d.width.kinds ++ (d.precision.kinds ++ Specifier.character.kinds)).length - 1 =
          (d.width.kinds ++ d.precision.kinds).length := by
        simp [Specifier.kinds]
      simp only [true_and, hlen]
    | _ => simp

/-- **NUL in a text** comes from an argument that `%c` outputs. -/
theorem zero_mem_formatText_iff {items : List Item} {va : List Arg} {t : List Byte}
    (h : formatText items va = some t) :
    0 ∈ t ↔ ∃ a ∈ characterArgs items va, a.int.setWidth 8 = (0 : Byte) := by
  induction items generalizing va t with
  | nil =>
    obtain rfl := Option.some.inj h
    simp [characterArgs]
  | cons item items ih =>
    cases item with
    | literal c =>
      obtain ⟨t', ht', rfl⟩ := Option.map_eq_some_iff.mp h
      rw [List.mem_cons, or_iff_right (Ne.symm c.property.1), characterArgs]
      exact ih ht'
    | directive d =>
      simp only [formatText, Option.bind_eq_bind] at h
      obtain ⟨⟨text, va'⟩, htext, h⟩ := Option.bind_eq_some_iff.mp h
      obtain ⟨t', ht', rfl⟩ := Option.map_eq_some_iff.mp h
      obtain ⟨rfl, hzero⟩ := Directive.text_spec htext
      rw [List.mem_append, hzero, ih ht', characterArgs]
      simp only [List.mem_append, Option.mem_toList, or_and_right, exists_or, Option.mem_def]

/-! ### The sinks -/

/-- The sinks that pass over NUL are called with the other characters. -/
theorem emit_outNonzero {σ : Type} (f : Byte → σ → σ) (maxlen : ℕ) (t : List Byte) (o : Cursor σ) :
    (emit (outNonzero f) maxlen t o).state =
      (t.filter (· ≠ 0)).foldl (fun s c => f c s) o.state := by
  induction t generalizing o with
  | nil => rfl
  | cons c t ih =>
    rw [emit, ih]
    by_cases hc : c = 0#8
    · simp [put, outNonzero, hc]
    · simp [put, outNonzero, hc]

theorem foldl_concat {α β : Type} (f : α → β) (l : List α) (s : List β) :
    l.foldl (fun s c => s ++ [f c]) s = s ++ l.map f := by
  induction l generalizing s with
  | nil => exact (List.append_nil s).symm
  | cons c l ih =>
    rw [List.foldl_cons, ih, List.append_assoc]
    rfl

/-- Every sink is given `text`, and every function returns its length. -/
structure SinksAgree (format : List Byte) (va : List Arg) (text : List Byte) : Prop where
  /-- The calls of the callback. -/
  fctprintf : fctprintf (fun c calls => calls ++ [c]) [] format va = some ((text.length : ℤ), text)
  /-- The calls of `kputc`. -/
  vprintf : ∃ ops, vprintf format va = some ((text.length : ℤ), ops) ∧ ∀ s : Console,
    s.useSerial = false → s.halted = false → (s.execAll ops).trace =
      s.trace ++ text.map fun c => ⟨.kernel, .terminal s.write, c⟩
  kprintf : ∃ ops, kprintf format va = some ((text.length : ℤ), ops) ∧ ∀ s : Console,
    s.useSerial = false → s.halted = false → (s.execAll ops).trace =
      s.trace ++ text.map fun c => ⟨.kernel, .terminal s.write, c⟩
  /-- The calls of `dputc`. -/
  dprintf : ∃ ops, dprintf format va = some ((text.length : ℤ), ops) ∧ ∀ s : Console,
    s.halted = false → (s.execAll ops).trace = s.trace ++ text.flatMap (dputc .host)
  /-- The array, which ends in the terminating NUL. -/
  sprintf : ∃ full, sprintf format va = some ((text.length : ℤ), full) ∧ ∀ before,
    (∀ i (hi : i < text.length), contents before full i = text[i]) ∧
      contents before full text.length = 0

/-- What a sink that passes over NUL is left with. -/
theorem internalVsnprintf_outNonzero {σ : Type} (f : Byte → σ → σ) {items : List Item}
    {va : List Arg} {t : List Byte} (ht : formatText items va = some t) (hlen : t.length < 2 ^ 31)
    (s : σ) : internalVsnprintf (outNonzero f) sizeMax false (formatBytes items) va s =
      some ((t.length : ℤ), (t.filter (· ≠ 0)).foldl (fun s c => f c s) s) := by
  have h := internalVsnprintf_eq (outNonzero f) sizeMax ht hlen s
  rw [← emit_outNonzero f sizeMax t ⟨0, s⟩]
  exact h

theorem fctprintf_eq {items : List Item} {va : List Arg} {t : List Byte}
    (ht : formatText items va = some t) (hlen : t.length < 2 ^ 31) :
    fctprintf (fun c calls => calls ++ [c]) [] (formatBytes items) va =
      some ((t.length : ℤ), t.filter (· ≠ 0)) := by
  refine (internalVsnprintf_outNonzero _ ht hlen []).trans ?_
  rw [foldl_concat (fun c => c), List.map_id', List.nil_append]

theorem printfFor_eq (f : Family) {items : List Item} {va : List Arg} {t : List Byte}
    (ht : formatText items va = some t) (hlen : t.length < 2 ^ 31) :
    printfFor f (formatBytes items) va =
      some ((t.length : ℤ), chars f (t.filter (· ≠ 0))) := by
  refine (internalVsnprintf_outNonzero _ ht hlen []).trans ?_
  rw [foldl_concat (Op.putchar f), List.nil_append]
  rfl

/-- Where the flag is clear, characters reach the terminal. -/
theorem trace_chars_terminal (text : List Byte) {s : Console} (hserial : s.useSerial = false)
    (hhalted : s.halted = false) : (s.execAll (chars .kernel text)).trace =
      s.trace ++ text.map fun c => ⟨.kernel, .terminal s.write, c⟩ := by
  rw [execAll_chars _ _ hhalted]
  show s.trace ++ text.flatMap (outCharFuncs s .kernel) = _
  have hone : outCharFuncs s .kernel = fun c => [⟨.kernel, .terminal s.write, c⟩] := by
    funext c
    rw [outCharFuncs, hserial]
    rfl
  rw [hone, List.map_eq_flatMap]

/-- The count includes the NULs that are passed over. -/
theorem zero_notMem_of_sinksAgree {items : List Item} {va : List Arg} {t text : List Byte}
    (ht : formatText items va = some t) (hlen : t.length < 2 ^ 31)
    (h : SinksAgree (formatBytes items) va text) : 0 ∉ t := by
  have hcalls := (fctprintf_eq ht hlen).symm.trans h.fctprintf
  obtain ⟨hcount, rfl⟩ := Prod.mk.inj (Option.some.inj hcalls)
  have hall := List.length_filter_eq_length_iff.mp (Int.ofNat.inj hcount).symm
  intro h0
  exact absurd (hall 0 h0) (by decide)

/-- **One text for all sinks.** For complete directives, matching arguments and a text below `2^31`
characters, the sinks agree if and only if no argument of `%c` is 0 as a character. -/
theorem sinksAgree_iff (items : List Item) (va : List Arg) (hva : Matches items va)
    (hlen : ∀ t, formatText items va = some t → t.length < 2 ^ 31) :
    (∃ text, SinksAgree (formatBytes items) va text) ↔
      ∀ a ∈ characterArgs items va, a.int.setWidth 8 ≠ (0 : Byte) := by
  obtain ⟨t, ht⟩ := formatText_of_matches hva
  have ht31 := hlen t ht
  have hnul : (∀ a ∈ characterArgs items va, a.int.setWidth 8 ≠ (0 : Byte)) ↔ 0 ∉ t := by
    rw [zero_mem_formatText_iff ht]
    simp only [not_exists, not_and, ne_eq]
  rw [hnul]
  constructor
  · intro h
    obtain ⟨text, h⟩ := h
    exact zero_notMem_of_sinksAgree ht ht31 h
  · intro h0
    have hfilter : t.filter (· ≠ 0) = t := by
      rw [List.filter_eq_self]
      intro c hc
      exact decide_eq_true fun heq => h0 (heq ▸ hc)
    have hprint : ∀ f, printfFor f (formatBytes items) va = some ((t.length : ℤ), chars f t) := by
      intro f
      rw [printfFor_eq f ht ht31, hfilter]
    refine ⟨t, ?_, ?_, ?_, ?_, ?_⟩
    · rw [fctprintf_eq ht ht31, hfilter]
    · exact ⟨_, hprint .kernel, fun s => trace_chars_terminal t⟩
    · exact ⟨_, hprint .kernel, fun s => trace_chars_terminal t⟩
    · refine ⟨callShape .host t, ?_, ?_⟩
      · rw [dprintf, hprint .host]
        rfl
      · intro s hhalted
        rw [execAll_callShape_host t hhalted]
    · have hcells := fun before => contents_storeTerminated before (show 0 < sizeMax by decide) t 0
      have hmin : min t.length (sizeMax - 1) = t.length := by
        rw [sizeMax]
        omega
      refine ⟨storeTerminated sizeMax t 0, vsnprintf_eq ht ht31 (by decide), ?_⟩
      intro before
      have hlast := (hcells before).2
      rw [hmin] at hlast
      exact ⟨fun i hi => (hcells before).1 i hi (by omega), hlast⟩

/-- `%c=%d` with a letter and a number. -/
theorem sinksAgree_iff_letter :
    (∃ text, SinksAgree
      (formatBytes [.directive { specifier := .character }, .literal ⟨ch '=', by decide⟩,
        .directive { specifier := .integer .d }]) [⟨65, []⟩, ⟨-1, []⟩] text) ↔
      ∀ a ∈ characterArgs [.directive { specifier := .character }, .literal ⟨ch '=', by decide⟩,
        .directive { specifier := .integer .d }] [⟨65, []⟩, ⟨-1, []⟩],
        a.int.setWidth 8 ≠ (0 : Byte) := by
  refine sinksAgree_iff _ _ ⟨trivial, trivial, trivial⟩ ?_
  intro t ht
  have htext : t = "A=-1".toList.map ch := Option.some.inj (ht.symm.trans (by decide))
  rw [htext]
  decide

/-- `%c` with the argument 0: the count is 1, the callback is not called. -/
theorem nul_character_not_agree :
    ¬∃ text, SinksAgree (formatBytes [.directive { specifier := .character }]) [⟨0, []⟩] text := by
  rintro ⟨text, h⟩
  have ht : formatText [.directive { specifier := .character }] [⟨0, []⟩] = some [0] := rfl
  exact zero_notMem_of_sinksAgree ht (by decide) h (List.mem_singleton.mpr rfl)

end MegaOS.Log
