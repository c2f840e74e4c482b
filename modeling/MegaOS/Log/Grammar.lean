import MegaOS.Log.FormatEnd
import MegaOS.Log.Sinks

/-!
# The grammar of formats

Any byte may stand where a specifier is looked for, and a byte that is none is output
as it is. Each part of a directive is as long as it can be: behind a width come
no digits, behind one `l` no second one. With that, the formats that do not end
inside a directive are exactly those that can be written as literals and directives,
and they can be written so in one way only. The formatter outputs the text of that
reading.
-/

namespace MegaOS.Log

open MegaOS.Memory MegaOS.Emission

/-! ### Syntax -/

def digitChars : List Byte := (List.finRange 10).map digitByte

/-- What would continue a width. -/
def Width.follow : Width → List Byte
  | .none => widthChars
  | .number _ _ => digitChars
  | .star => []

def Precision.follow : Precision → List Byte
  | .none => [ch '.']
  | .number [] => widthChars
  | .number _ => digitChars
  | .star => []

def Length.follow : Length → List Byte
  | .none => lengthChars
  | .l => [ch 'l']
  | .h => [ch 'h']
  | _ => []

/-- The bytes do not go on with one of `cs`. -/
def Ends (cs : List Byte) (l : List Byte) : Prop := ∀ c ∈ l.head?, c ∉ cs

instance (cs l : List Byte) : Decidable (Ends cs l) := inferInstanceAs (Decidable (∀ c ∈ l.head?, _))

/-- A directive with any byte as its specifier, each part of which ends where it has to. -/
structure RawDirective where
  flags : List FlagChar := []
  width : Width := .none
  precision : Precision := .none
  length : Length := .none
  specifier : Byte
  flagsEnd : Ends flagChars (width.bytes ++ (precision.bytes ++ (length.bytes ++ [specifier])))
  widthEnd : Ends width.follow (precision.bytes ++ (length.bytes ++ [specifier]))
  precisionEnd : Ends precision.follow (length.bytes ++ [specifier])
  lengthEnd : specifier ∉ length.follow
  notNul : specifier ≠ 0

/-- The directive after its `%`, in front of `rest`. -/
def RawDirective.bytesBefore (d : RawDirective) (rest : List Byte) : List Byte :=
  d.flags.map FlagChar.byte ++
    (d.width.bytes ++ (d.precision.bytes ++ (d.length.bytes ++ d.specifier :: rest)))

inductive RawItem
  | literal (c : Literal)
  | directive (d : RawDirective)

/-- The format without its NUL. -/
def rawBytes : List RawItem → List Byte
  | [] => []
  | .literal c :: items => c.val :: rawBytes items
  | .directive d :: items => ch '%' :: d.bytesBefore (rawBytes items)

/-! ### Meaning -/

def specifiers : List Specifier :=
  [.integer .d, .integer .i, .integer .u, .integer .x, .integer .X, .integer .o, .integer .b,
    .character, .string, .pointer, .percent]

/-- The specifier that a byte is, if it is one. -/
def specifierOf (c : Byte) : Option Specifier := specifiers.find? fun sp => sp.byte = c

/-- The parts in front of the specifier. -/
def RawDirective.fields (d : RawDirective) : Directive :=
  { flags := d.flags, width := d.width, precision := d.precision, length := d.length
    specifier := .percent }

/-- An unknown specifier takes no argument and denotes itself. -/
def RawDirective.text (d : RawDirective) (va : List Arg) : Option (List Byte × List Arg) := do
  let (s, va) ← d.fields.resolve va
  match specifierOf d.specifier with
  | some sp => sp.text s va
  | none => some ([d.specifier], va)

/-- **The text of a format**, and the arguments that are left. -/
def rawText : List RawItem → List Arg → Option (List Byte × List Arg)
  | [], va => some ([], va)
  | .literal c :: items, va => (rawText items va).map fun r => (c.val :: r.1, r.2)
  | .directive d :: items, va => do
    let (text, va) ← d.text va
    (rawText items va).map fun r => (text ++ r.1, r.2)

def RawDirective.kinds (d : RawDirective) : List Kind :=
  d.width.kinds ++ (d.precision.kinds ++ ((specifierOf d.specifier).elim [] Specifier.kinds))

def RawItem.kinds : RawItem → List Kind
  | .literal _ => []
  | .directive d => d.kinds

/-- The arguments match the format. -/
def RawMatches (items : List RawItem) (va : List Arg) : Prop := Fits (items.flatMap RawItem.kinds) va

/-! ### Blocks of characters

A block is read as long as its characters decode. -/

section Block

variable {α : Type} (byte : α → Byte) (all : List α)

def decode (c : Byte) : Option α := all.find? fun a => byte a = c

/-- The longest block, and what follows it. -/
def readBlock : List Byte → List α × List Byte
  | [] => ([], [])
  | c :: l =>
    match decode byte all c with
    | some a => (a :: (readBlock l).1, (readBlock l).2)
    | none => ([], c :: l)

variable {byte all}

theorem decode_byte (hinj : Function.Injective byte) (hall : ∀ a, a ∈ all) (a : α) :
    decode byte all (byte a) = some a := by
  cases hfind : decode byte all (byte a) with
  | none =>
    have hnone := List.find?_eq_none.mp hfind a (hall a)
    exact absurd (decide_eq_true rfl) hnone
  | some b =>
    have hb := List.find?_some hfind
    rw [hinj (of_decide_eq_true hb)]

theorem decode_eq_none {c : Byte} (h : c ∉ all.map byte) : decode byte all c = none := by
  rw [decode, List.find?_eq_none]
  intro a ha hc
  exact h (List.mem_map.mpr ⟨a, ha, of_decide_eq_true hc⟩)

/-- **A block is read back.** -/
theorem readBlock_map (hinj : Function.Injective byte) (hall : ∀ a, a ∈ all) (as : List α)
    {rest : List Byte} (h : Ends (all.map byte) rest) :
    readBlock byte all (as.map byte ++ rest) = (as, rest) := by
  induction as with
  | nil =>
    cases rest with
    | nil => rfl
    | cons c rest =>
      show readBlock byte all (c :: rest) = _
      rw [readBlock, decode_eq_none (h c rfl)]
  | cons a as ih =>
    rw [List.map_cons, List.cons_append, readBlock, decode_byte hinj hall, ih]

variable (byte all) in
/-- **Every text starts with a block.** -/
theorem exists_block (l : List Byte) :
    ∃ (as : List α) (rest : List Byte), l = as.map byte ++ rest ∧ Ends (all.map byte) rest := by
  induction l with
  | nil => exact ⟨[], [], rfl, fun c hc => absurd hc (Option.not_mem_none c)⟩
  | cons c l ih =>
    by_cases hc : c ∈ all.map byte
    · obtain ⟨a, -, rfl⟩ := List.mem_map.mp hc
      obtain ⟨as, rest, rfl, hend⟩ := ih
      exact ⟨a :: as, rest, rfl, hend⟩
    · exact ⟨[], c :: l, rfl, fun d hd => Option.some.inj hd ▸ hc⟩

end Block

/-! ### The parts of a directive are read back -/

def allFlags : List FlagChar := [.zero, .minus, .plus, .space, .hash]

theorem mem_allFlags (f : FlagChar) : f ∈ allFlags := by cases f <;> simp [allFlags]

theorem FlagChar.byte_injective : Function.Injective FlagChar.byte := by
  intro f g h
  cases f <;> cases g <;> first | rfl | exact absurd h (by decide)

theorem digitByte_injective : Function.Injective digitByte := by decide

def readFlags : List Byte → List FlagChar × List Byte := readBlock FlagChar.byte allFlags

def readDigits : List Byte → List (Fin 10) × List Byte := readBlock digitByte (List.finRange 10)

def readWidth : List Byte → Width × List Byte
  | [] => (.none, [])
  | c :: l =>
    if c = ch '*' then (.star, l)
    else
      match readDigits (c :: l) with
      | (d :: ds, rest) => if h : d ≠ 0 then (.number (d.pred h) ds, rest) else (.none, c :: l)
      | ([], _) => (.none, c :: l)

def readPrecision : List Byte → Precision × List Byte
  | [] => (.none, [])
  | c :: l =>
    if c = ch '.' then
      match l with
      | [] => (.number [], [])
      | d :: l' =>
        if d = ch '*' then (.star, l') else (.number (readDigits l).1, (readDigits l).2)
    else (.none, c :: l)

/-- One letter, or the same twice. -/
def readLetter (c : Byte) (one two : Length) : List Byte → Length × List Byte
  | [] => (one, [])
  | d :: l => if d = c then (two, l) else (one, d :: l)

def readLength : List Byte → Length × List Byte
  | [] => (.none, [])
  | c :: l =>
    if c = ch 'l' then readLetter (ch 'l') .l .ll l
    else if c = ch 'h' then readLetter (ch 'h') .h .hh l
    else if c = ch 't' then (.t, l)
    else if c = ch 'j' then (.j, l)
    else if c = ch 'z' then (.z, l)
    else (.none, c :: l)

theorem readFlags_bytes (fs : List FlagChar) {rest : List Byte} (h : Ends flagChars rest) :
    readFlags (fs.map FlagChar.byte ++ rest) = (fs, rest) :=
  readBlock_map FlagChar.byte_injective mem_allFlags fs h

theorem readDigits_bytes (ds : List (Fin 10)) {rest : List Byte} (h : Ends digitChars rest) :
    readDigits (ds.map digitByte ++ rest) = (ds, rest) :=
  readBlock_map digitByte_injective List.mem_finRange ds h

theorem digitByte_ne_star : ∀ d, digitByte d ≠ ch '*' := by decide

theorem readWidth_bytes (w : Width) {rest : List Byte} (h : Ends w.follow rest) :
    readWidth (w.bytes ++ rest) = (w, rest) := by
  cases w with
  | none =>
    cases rest with
    | nil => rfl
    | cons c rest =>
      obtain ⟨hstar, hdigit⟩ := not_or.mp (mt List.mem_cons.mpr (h c rfl))
      have hnone : readDigits (c :: rest) = ([], c :: rest) :=
        readDigits_bytes [] fun d hd => Option.some.inj hd ▸ hdigit
      show readWidth (c :: rest) = _
      rw [readWidth, if_neg hstar, hnone]
  | number first digits =>
    have hread := readDigits_bytes (first.succ :: digits) h
    rw [List.map_cons, List.cons_append] at hread
    show readWidth (digitByte first.succ :: (digits.map digitByte ++ rest)) = _
    rw [readWidth, if_neg (digitByte_ne_star _), hread]
    simp only
    rw [dif_pos (Fin.succ_ne_zero first), Fin.pred_succ]
  | star => rfl

theorem readPrecision_bytes (p : Precision) {rest : List Byte} (h : Ends p.follow rest) :
    readPrecision (p.bytes ++ rest) = (p, rest) := by
  cases p with
  | none =>
    cases rest with
    | nil => rfl
    | cons c rest =>
      exact if_neg fun hdot => h c rfl (List.mem_singleton.mpr hdot)
  | number digits =>
    cases digits with
    | nil =>
      cases rest with
      | nil => rfl
      | cons c rest =>
        obtain ⟨hstar, hdigit⟩ := not_or.mp (mt List.mem_cons.mpr (h c rfl))
        have hnone : readDigits (c :: rest) = ([], c :: rest) :=
          readDigits_bytes [] fun d hd => Option.some.inj hd ▸ hdigit
        show readPrecision (ch '.' :: c :: rest) = _
        rw [readPrecision, if_pos rfl, if_neg hstar, hnone]
    | cons d digits =>
      have hread := readDigits_bytes (d :: digits) h
      rw [List.map_cons, List.cons_append] at hread
      show readPrecision (ch '.' :: digitByte d :: (digits.map digitByte ++ rest)) = _
      rw [readPrecision, if_pos rfl, if_neg (digitByte_ne_star d), hread]
  | star => rfl

theorem readLength_bytes (len : Length) {rest : List Byte} (h : Ends len.follow rest) :
    readLength (len.bytes ++ rest) = (len, rest) := by
  have hletter : ∀ {c : Byte} {one two : Length}, Ends [c] rest →
      readLetter c one two rest = (one, rest) := by
    intro c one two hend
    cases rest with
    | nil => rfl
    | cons d rest =>
      rw [readLetter, if_neg (fun hd => hend d rfl (List.mem_singleton.mpr hd))]
  cases len with
  | none =>
    cases rest with
    | nil => rfl
    | cons c rest =>
      have hc := h c rfl
      simp only [Length.follow, lengthChars, List.mem_cons, List.not_mem_nil, or_false, not_or] at hc
      obtain ⟨hl, hh, ht, hj, hz⟩ := hc
      show readLength (c :: rest) = _
      rw [readLength, if_neg hl, if_neg hh, if_neg ht, if_neg hj, if_neg hz]
  | l => exact hletter h
  | h => exact hletter h
  | _ => rfl

/-! ### One reading -/

/-- More bytes at the end do not matter where there is one already. -/
theorem ends_append_cons {cs l rest : List Byte} {c : Byte} :
    Ends cs (l ++ c :: rest) ↔ Ends cs (l ++ [c]) := by
  cases l with
  | nil => exact Iff.rfl
  | cons d l => exact Iff.rfl

/-- Each part ends, whatever follows the directive. -/
theorem RawDirective.ends (d : RawDirective) (rest : List Byte) :
    Ends flagChars (d.width.bytes ++ (d.precision.bytes ++ (d.length.bytes ++
      d.specifier :: rest))) ∧
    Ends d.width.follow (d.precision.bytes ++ (d.length.bytes ++ d.specifier :: rest)) ∧
    Ends d.precision.follow (d.length.bytes ++ d.specifier :: rest) ∧
    Ends d.length.follow (d.specifier :: rest) := by
  have hflags := d.flagsEnd
  have hwidth := d.widthEnd
  simp only [← List.append_assoc] at hflags hwidth ⊢
  exact ⟨ends_append_cons.mpr hflags, ends_append_cons.mpr hwidth,
    ends_append_cons.mpr d.precisionEnd, fun c hc => Option.some.inj hc ▸ d.lengthEnd⟩

/-- The parts of a directive, and the rest from its specifier on. -/
def readDirective (l : List Byte) : List FlagChar × Width × Precision × Length × List Byte :=
  let flags := readFlags l
  let width := readWidth flags.2
  let precision := readPrecision width.2
  let length := readLength precision.2
  (flags.1, width.1, precision.1, length.1, length.2)

/-- **A directive is read back.** -/
theorem readDirective_bytesBefore (d : RawDirective) (rest : List Byte) :
    readDirective (d.bytesBefore rest) =
      (d.flags, d.width, d.precision, d.length, d.specifier :: rest) := by
  obtain ⟨hflags, hwidth, hprecision, hlength⟩ := d.ends rest
  simp only [readDirective, RawDirective.bytesBefore, readFlags_bytes _ hflags,
    readWidth_bytes _ hwidth, readPrecision_bytes _ hprecision, readLength_bytes _ hlength]

theorem RawDirective.bytesBefore_injective {d d' : RawDirective} {rest rest' : List Byte}
    (h : d.bytesBefore rest = d'.bytesBefore rest') : d = d' ∧ rest = rest' := by
  have hread := congrArg readDirective h
  rw [readDirective_bytesBefore, readDirective_bytesBefore] at hread
  obtain ⟨flags, width, precision, length, specifier, hflags, hwidth, hprecision, hlength, h0⟩ := d
  obtain ⟨flags', width', precision', length', specifier', hflags', hwidth', hprecision', hlength',
    h0'⟩ := d'
  simp only [Prod.mk.injEq, List.cons.injEq] at hread
  obtain ⟨rfl, rfl, rfl, rfl, rfl, rfl⟩ := hread
  exact ⟨rfl, rfl⟩

/-- **One reading.** A format is written as items in one way at most. -/
theorem rawBytes_injective {items items' : List RawItem} (h : rawBytes items = rawBytes items') :
    items = items' := by
  induction items generalizing items' with
  | nil =>
    cases items' with
    | nil => rfl
    | cons item' items' => cases item' <;> exact absurd h.symm (List.cons_ne_nil _ _)
  | cons item items ih =>
    cases items' with
    | nil => cases item <;> exact absurd h (List.cons_ne_nil _ _)
    | cons item' items' =>
      cases item with
      | literal c =>
        cases item' with
        | literal c' =>
          obtain ⟨hc, hrest⟩ := List.cons.inj h
          rw [Subtype.ext hc, ih hrest]
        | directive d' => exact absurd (List.cons.inj h).1 c.property.2
      | directive d =>
        cases item' with
        | literal c' => exact absurd (List.cons.inj h).1.symm c'.property.2
        | directive d' =>
          obtain ⟨rfl, hrest⟩ := RawDirective.bytesBefore_injective (List.cons.inj h).2
          rw [ih hrest]

/-! ### Every part is there -/

theorem exists_flags (l : List Byte) :
    ∃ (fs : List FlagChar) (rest : List Byte), l = fs.map FlagChar.byte ++ rest ∧
      Ends flagChars rest :=
  exists_block FlagChar.byte allFlags l

theorem exists_digits (l : List Byte) :
    ∃ (ds : List (Fin 10)) (rest : List Byte), l = ds.map digitByte ++ rest ∧
      Ends digitChars rest :=
  exists_block digitByte (List.finRange 10) l

theorem exists_width {l : List Byte} (h : Ends flagChars l) :
    ∃ (w : Width) (rest : List Byte), l = w.bytes ++ rest ∧ Ends w.follow rest := by
  cases l with
  | nil => exact ⟨.none, [], rfl, fun c hc => absurd hc (Option.not_mem_none c)⟩
  | cons c l =>
    by_cases hstar : c = ch '*'
    · exact ⟨.star, l, by rw [hstar]; rfl, fun d _ => List.not_mem_nil⟩
    · obtain ⟨ds, rest, heq, hend⟩ := exists_digits (c :: l)
      cases ds with
      | nil =>
        refine ⟨.none, c :: l, rfl, ?_⟩
        intro d hd
        obtain rfl := Option.some.inj hd
        rw [Width.follow, widthChars, List.mem_cons, not_or]
        have hrest : c :: l = rest := heq
        exact ⟨hstar, hend c (by rw [← hrest]; rfl)⟩
      | cons d ds =>
        by_cases hd : d = 0
        · -- a zero is a flag
          have hzero : c = ch '0' := by
            rw [(List.cons.inj heq).1, hd]
            rfl
          exact absurd (by rw [hzero]; decide) (h c rfl)
        · refine ⟨.number (d.pred hd) ds, rest, ?_, hend⟩
          rw [Width.bytes, Fin.succ_pred]
          exact heq

theorem exists_precision (l : List Byte) :
    ∃ (p : Precision) (rest : List Byte), l = p.bytes ++ rest ∧ Ends p.follow rest := by
  have hnone : ∀ cs : List Byte, Ends cs [] := fun cs c hc => absurd hc (Option.not_mem_none c)
  cases l with
  | nil => exact ⟨.none, [], rfl, hnone _⟩
  | cons c l =>
    by_cases hdot : c = ch '.'
    · subst hdot
      cases l with
      | nil => exact ⟨.number [], [], rfl, hnone _⟩
      | cons c l =>
        by_cases hstar : c = ch '*'
        · exact ⟨.star, l, by rw [hstar]; rfl, fun d _ => List.not_mem_nil⟩
        · obtain ⟨ds, rest, heq, hend⟩ := exists_digits (c :: l)
          cases ds with
          | nil =>
            refine ⟨.number [], c :: l, rfl, ?_⟩
            intro d hd
            obtain rfl := Option.some.inj hd
            rw [Precision.follow, widthChars, List.mem_cons, not_or]
            have hrest : c :: l = rest := heq
            exact ⟨hstar, hend c (by rw [← hrest]; rfl)⟩
          | cons d ds =>
            refine ⟨.number (d :: ds), rest, ?_, hend⟩
            rw [heq]
            rfl
    · refine ⟨.none, c :: l, rfl, ?_⟩
      intro d hd
      obtain rfl := Option.some.inj hd
      exact fun hmem => hdot (List.mem_singleton.mp hmem)

theorem exists_length (l : List Byte) :
    ∃ (len : Length) (rest : List Byte), l = len.bytes ++ rest ∧ Ends len.follow rest := by
  have hnil : ∀ rest : List Byte, Ends [] rest := fun rest c _ => List.not_mem_nil
  have htwice : ∀ (c : Byte) (l : List Byte),
      (∃ rest, l = c :: rest) ∨ Ends [c] l := by
    intro c l
    cases l with
    | nil => exact .inr fun d hd => absurd hd (Option.not_mem_none d)
    | cons d l =>
      by_cases hd : d = c
      · exact .inl ⟨l, by rw [hd]⟩
      · exact .inr fun e he => Option.some.inj he ▸ fun hmem => hd (List.mem_singleton.mp hmem)
  cases l with
  | nil => exact ⟨.none, [], rfl, fun c hc => absurd hc (Option.not_mem_none c)⟩
  | cons c l =>
    by_cases hletter : c ∈ lengthChars
    · simp only [lengthChars, List.mem_cons, List.not_mem_nil, or_false] at hletter
      rcases hletter with rfl | rfl | rfl | rfl | rfl
      · rcases htwice (ch 'l') l with ⟨rest, rfl⟩ | hend
        · exact ⟨.ll, rest, rfl, hnil rest⟩
        · exact ⟨.l, l, rfl, hend⟩
      · rcases htwice (ch 'h') l with ⟨rest, rfl⟩ | hend
        · exact ⟨.hh, rest, rfl, hnil rest⟩
        · exact ⟨.h, l, rfl, hend⟩
      · exact ⟨.t, l, rfl, hnil l⟩
      · exact ⟨.j, l, rfl, hnil l⟩
      · exact ⟨.z, l, rfl, hnil l⟩
    · exact ⟨.none, c :: l, rfl, fun d hd => Option.some.inj hd ▸ hletter⟩

/-- What `%` is followed by: a directive, or an end inside one. -/
theorem exists_directive (l : List Byte) (h0 : 0 ∉ l) :
    (∃ (d : RawDirective) (rest : List Byte), l = d.bytesBefore rest) ∨
    ∃ (fs : List FlagChar) (w : Width) (p : Precision) (len : Length),
      l = fs.map FlagChar.byte ++ (w.bytes ++ (p.bytes ++ len.bytes)) := by
  obtain ⟨fs, r₁, rfl, hflags⟩ := exists_flags l
  obtain ⟨w, r₂, rfl, hwidth⟩ := exists_width hflags
  obtain ⟨p, r₃, rfl, hprecision⟩ := exists_precision r₂
  obtain ⟨len, r₄, rfl, hlength⟩ := exists_length r₃
  cases r₄ with
  | nil => exact .inr ⟨fs, w, p, len, by rw [List.append_nil]⟩
  | cons c rest =>
    have hc : c ≠ 0 := by
      rintro rfl
      exact h0 (by simp)
    have hflags' : Ends flagChars (w.bytes ++ (p.bytes ++ (len.bytes ++ [c]))) := by
      simp only [← List.append_assoc] at hflags ⊢
      exact ends_append_cons.mp hflags
    have hwidth' : Ends w.follow (p.bytes ++ (len.bytes ++ [c])) := by
      simp only [← List.append_assoc] at hwidth ⊢
      exact ends_append_cons.mp hwidth
    exact .inl ⟨⟨fs, w, p, len, c, hflags', hwidth', ends_append_cons.mp hprecision,
      hlength c rfl, hc⟩, rest, rfl⟩

/-! ### Places -/

/-- The place behind each part. -/
def Width.place : Width → Place
  | .none => .flags
  | .number _ _ => .widthDigits
  | .star => .precision

def Precision.place (p : Place) : Precision → Place
  | .none => p
  | .number [] => .dot
  | .number _ => .precisionDigits
  | .star => .length

def Length.place (p : Place) : Length → Place
  | .none => p
  | .l => .l
  | .h => .h
  | _ => .specifier

theorem isDigit_digitChars : ∀ c : Byte, isDigit c = true → c ∈ digitChars := by decide

theorem foldl_digits {p : Place} (h : ∀ d, p.next (digitByte d) = p) (ds : List (Fin 10)) :
    (ds.map digitByte).foldl Place.next p = p := by
  induction ds with
  | nil => rfl
  | cons d ds ih =>
    rw [List.map_cons, List.foldl_cons, h d]
    exact ih

theorem foldl_flags (fs : List FlagChar) :
    (fs.map FlagChar.byte).foldl Place.next .flags = .flags := by
  induction fs with
  | nil => rfl
  | cons f fs ih =>
    have hone : Place.flags.next f.byte = .flags := by cases f <;> rfl
    rw [List.map_cons, List.foldl_cons, hone]
    exact ih

theorem foldl_width (w : Width) : w.bytes.foldl Place.next .flags = w.place := by
  cases w with
  | number first digits =>
    have hfirst : ∀ first : Fin 9, Place.flags.next (digitByte first.succ) = .widthDigits := by
      decide
    rw [Width.bytes, List.map_cons, List.foldl_cons, hfirst]
    exact foldl_digits (by decide) digits
  | _ => rfl

theorem foldl_precision (w : Width) (p : Precision) :
    p.bytes.foldl Place.next w.place = p.place w.place := by
  have hdot : w.place.next (ch '.') = .dot := by cases w <;> rfl
  cases p with
  | none => rfl
  | number digits =>
    cases digits with
    | nil => exact hdot
    | cons d digits =>
      have hfirst : ∀ d, Place.dot.next (digitByte d) = .precisionDigits := by decide
      rw [Precision.bytes, List.foldl_cons, hdot, List.map_cons, List.foldl_cons, hfirst]
      exact foldl_digits (by decide) digits
  | star =>
    rw [Precision.bytes, List.foldl_cons, hdot]
    rfl

/-- Where a length modifier may stand. -/
def lengthPlaces : List Place := [.flags, .widthDigits, .precision, .dot, .precisionDigits, .length]

theorem place_mem (w : Width) (p : Precision) : p.place w.place ∈ lengthPlaces := by
  cases p with
  | none => cases w <;> simp [Precision.place, Width.place, lengthPlaces]
  | number digits => cases digits <;> simp [Precision.place, lengthPlaces]
  | star => simp [Precision.place, lengthPlaces]

theorem foldl_length (len : Length) :
    ∀ q ∈ lengthPlaces, len.bytes.foldl Place.next q = len.place q := by
  cases len <;> decide

/-- Behind its parts, a directive is not complete. -/
theorem place_ne_text (len : Length) : ∀ q ∈ lengthPlaces, len.place q ≠ .text := by
  cases len <;> decide

/-- The parts in front of a specifier, as they move the place. -/
theorem foldl_parts (fs : List FlagChar) (w : Width) (p : Precision) (len : Length) :
    (fs.map FlagChar.byte ++ (w.bytes ++ (p.bytes ++ len.bytes))).foldl Place.next .flags =
      len.place (p.place w.place) := by
  rw [List.foldl_append, foldl_flags, List.foldl_append, foldl_width, List.foldl_append,
    foldl_precision, foldl_length len _ (place_mem w p)]

/-- A character that continues nothing is the specifier. -/
theorem next_specifier {w : Width} {p : Precision} {len : Length} {c : Byte}
    (hflags : Ends flagChars (w.bytes ++ (p.bytes ++ (len.bytes ++ [c]))))
    (hwidth : Ends w.follow (p.bytes ++ (len.bytes ++ [c])))
    (hprecision : Ends p.follow (len.bytes ++ [c])) (hlength : c ∉ len.follow) :
    (len.place (p.place w.place)).next c = .text := by
  cases len with
  | none =>
    have hafter : Place.afterLength c = .text := by
      simp only [Length.follow, lengthChars, List.mem_cons, List.not_mem_nil, or_false, not_or]
        at hlength
      obtain ⟨hl, hh, ht, hj, hz⟩ := hlength
      rw [Place.afterLength, if_neg hl, if_neg hh, if_neg (by simp [ht, hj, hz])]
    have hdigit : c ∉ digitChars → ¬isDigit c = true := fun h hd => h (isDigit_digitChars c hd)
    cases p with
    | star => exact hafter
    | number digits =>
      cases digits with
      | nil =>
        obtain ⟨hstar, hdigits⟩ := not_or.mp (mt List.mem_cons.mpr (hprecision c rfl))
        show (if isDigit c then _ else if c = ch '*' then _ else _) = _
        rw [if_neg (hdigit hdigits), if_neg hstar]
        exact hafter
      | cons d digits =>
        show (if isDigit c then _ else _) = _
        rw [if_neg (hdigit (hprecision c rfl))]
        exact hafter
    | none =>
      have hprec : Place.afterPrecision c = .text := by
        rw [Place.afterPrecision, if_neg fun hdot => hprecision c rfl (List.mem_singleton.mpr hdot)]
        exact hafter
      cases w with
      | star => exact hprec
      | number first digits =>
        show (if isDigit c then _ else _) = _
        rw [if_neg (hdigit (hwidth c rfl))]
        exact hprec
      | none =>
        obtain ⟨hstar, hdigits⟩ := not_or.mp (mt List.mem_cons.mpr (hwidth c rfl))
        show (if flagChars.contains c then _ else Place.afterWidth c) = _
        rw [if_neg (fun h => hflags c rfl (List.contains_iff_mem.mp h)), Place.afterWidth,
          if_neg (hdigit hdigits), if_neg hstar]
        exact hprec
  | l => exact if_neg fun hc => hlength (List.mem_singleton.mpr hc)
  | h => exact if_neg fun hc => hlength (List.mem_singleton.mpr hc)
  | _ => rfl

theorem RawDirective.suffix (d : RawDirective) (rest : List Byte) :
    rest <:+ d.bytesBefore rest := by
  refine ⟨d.flags.map FlagChar.byte ++
    (d.width.bytes ++ (d.precision.bytes ++ (d.length.bytes ++ [d.specifier]))), ?_⟩
  simp only [RawDirective.bytesBefore, List.append_assoc, List.singleton_append]

theorem RawDirective.foldl_next (d : RawDirective) (rest : List Byte) :
    (d.bytesBefore rest).foldl Place.next .flags = rest.foldl Place.next .text := by
  have hsplit : d.bytesBefore rest = (d.flags.map FlagChar.byte ++
      (d.width.bytes ++ (d.precision.bytes ++ d.length.bytes))) ++ d.specifier :: rest := by
    simp only [RawDirective.bytesBefore, List.append_assoc]
  rw [hsplit, List.foldl_append, foldl_parts, List.foldl_cons,
    next_specifier d.flagsEnd d.widthEnd d.precisionEnd d.lengthEnd]

/-! ### The formats that are read -/

theorem complete_rawBytes (items : List RawItem) : Place.text.Complete (rawBytes items) := by
  induction items with
  | nil => rfl
  | cons item items ih =>
    cases item with
    | literal c =>
      show (rawBytes items).foldl Place.next (Place.text.next c.val) = _
      have hnext : Place.text.next c.val = .text := if_neg c.property.2
      rw [hnext]
      exact ih
    | directive d => exact (d.foldl_next (rawBytes items)).trans ih

theorem zero_notMem_rawBytes (items : List RawItem) : 0 ∉ rawBytes items := by
  induction items with
  | nil => exact List.not_mem_nil
  | cons item items ih =>
    cases item with
    | literal c => exact fun h => (List.mem_cons.mp h).elim (fun h => c.property.1 h.symm) ih
    | directive d =>
      have hflags : 0 ∉ d.flags.map FlagChar.byte := by
        intro h
        obtain ⟨f, -, hf⟩ := List.mem_map.mp h
        cases f <;> exact absurd hf (by decide)
      have hdigits : ∀ ds : List (Fin 10), 0 ∉ ds.map digitByte := by
        intro ds h
        obtain ⟨n, -, hn⟩ := List.mem_map.mp h
        exact absurd hn (by revert n; decide)
      have hwidth : 0 ∉ d.width.bytes := by
        cases d.width with
        | number first digits => exact hdigits (first.succ :: digits)
        | _ => decide
      have hprecision : 0 ∉ d.precision.bytes := by
        cases d.precision with
        | number digits =>
          exact fun h => (List.mem_cons.mp h).elim (by decide) (hdigits digits)
        | _ => decide
      have hlength : 0 ∉ d.length.bytes := by cases d.length <;> decide
      simp only [rawBytes, RawDirective.bytesBefore, List.mem_cons, List.mem_append, not_or]
      exact ⟨by decide, hflags, hwidth, hprecision, hlength, Ne.symm d.notNul, ih⟩

theorem exists_items (n : ℕ) : ∀ format : List Byte, format.length ≤ n → 0 ∉ format →
    Place.text.Complete format → ∃ items, rawBytes items = format := by
  induction n with
  | zero =>
    intro format hlen _ _
    obtain rfl := List.length_eq_zero_iff.mp (Nat.le_zero.mp hlen)
    exact ⟨[], rfl⟩
  | succ n ih =>
    intro format hlen h0 hcomplete
    cases format with
    | nil => exact ⟨[], rfl⟩
    | cons c format =>
      rw [List.mem_cons, not_or] at h0
      have hshort : format.length ≤ n := Nat.le_of_succ_le_succ hlen
      have hfold : format.foldl Place.next (Place.text.next c) = .text := hcomplete
      by_cases hc : c = ch '%'
      · have hnext : Place.text.next c = .flags := if_pos hc
        rw [hnext] at hfold
        rcases exists_directive format h0.2 with ⟨d, rest, rfl⟩ | ⟨fs, w, p, len, rfl⟩
        · rw [d.foldl_next] at hfold
          obtain ⟨items, hitems⟩ := ih rest (Nat.le_trans (d.suffix rest).length_le hshort)
            (fun h => h0.2 ((d.suffix rest).mem h)) hfold
          exact ⟨.directive d :: items, by rw [rawBytes, hitems, hc]⟩
        · rw [foldl_parts] at hfold
          exact absurd hfold (place_ne_text len _ (place_mem w p))
      · have hnext : Place.text.next c = .text := if_neg hc
        rw [hnext] at hfold
        obtain ⟨items, hitems⟩ := ih format hshort h0.2 hfold
        exact ⟨.literal ⟨c, Ne.symm h0.1, hc⟩ :: items, by rw [rawBytes, hitems]⟩

/-- The bytes in front of a NUL have a reading, and then only one, if and only if they do not end
inside a directive. -/
theorem existsUnique_items (format : List Byte) :
    (∃! items, rawBytes items = format) ↔ 0 ∉ format ∧ Place.text.Complete format := by
  constructor
  · rintro ⟨items, rfl, -⟩
    exact ⟨zero_notMem_rawBytes items, complete_rawBytes items⟩
  · rintro ⟨h0, hcomplete⟩
    obtain ⟨items, hitems⟩ := exists_items format.length format (Nat.le_refl _) h0 hcomplete
    exact ⟨items, hitems, fun items' h => rawBytes_injective (h.trans hitems.symm)⟩

end MegaOS.Log
