import MegaOS.Foundation.Emission
import MegaOS.Foundation.Memory

/-!
# The printf family

The formatter of `logging.cpp` as it is built: no floating point, `long`, `long
long`, `size_t`, `ptrdiff_t`, `intmax_t` and pointers of 64 bits, `char` signed.

A string is the list of the bytes that may be read from its pointer on. Reading
past the end of the list, storing past the conversion buffer, taking an argument
that was not passed: each is a fault, and the result is `none`.
-/

namespace MegaOS.Log

open MegaOS.Memory MegaOS.Emission

def ch (c : Char) : Byte := BitVec.ofNat 8 c.toNat

/-- A variadic argument: its slot, and the bytes it points to when it is a string. -/
structure Arg where
  word : Word
  bytes : List Byte := []
deriving DecidableEq

/-- `va_arg(va, int)`. -/
def Arg.int (a : Arg) : BitVec 32 := a.word.setWidth 32

/-- The flag bits. -/
structure Flags where
  zeropad : Bool := false
  left : Bool := false
  plus : Bool := false
  space : Bool := false
  hash : Bool := false
  uppercase : Bool := false
  char : Bool := false
  short : Bool := false
  long : Bool := false
  longLong : Bool := false
  precision : Bool := false
deriving DecidableEq

/-! ### Output functions -/

abbrev OutFct (σ : Type) := Sink Byte σ

/-- `_out_buffer`: stores the character when its index is below `maxlen`. -/
def outBuffer : OutFct (Stores Byte) := boundedStore

/-- `_out_null`. -/
def outNull {σ : Type} : OutFct σ := fun _ _ _ buffer => buffer

/-- Passes on every character but NUL. -/
def outNonzero {σ : Type} (f : Byte → σ → σ) : OutFct σ := fun character _ _ s =>
  if character ≠ 0 then f character s else s

/-- `_out_char`, for what `putchar` does. -/
def outChar {σ : Type} (putchar : Byte → σ → σ) : OutFct σ := outNonzero putchar

/-- `_out_fct`, for the wrapped function. -/
def outFct {σ : Type} (fct : Byte → σ → σ) : OutFct σ := outNonzero fct

/-! ### Scanning helpers -/

/-- `_strnlen_s`, before the cast: the NUL is looked for before the limit is. -/
def strnlenS : List Byte → ℕ → Option ℕ
  | [], _ => none
  | c :: str, maxsize =>
    if c = 0 then some 0
    else if maxsize = 0 then some 0
    else (strnlenS str (maxsize - 1)).map (· + 1)

/-- `_is_digit`. -/
def isDigit (c : Byte) : Bool := (ch '0').toNat ≤ c.toNat && c.toNat ≤ (ch '9').toNat

/-- `_atoi` from the value `i` on, in unsigned 32-bit arithmetic. -/
def atoi : List Byte → ℕ → Option (ℕ × List Byte)
  | [], _ => none
  | c :: str, i =>
    if isDigit c then atoi str ((i * 10 + (c.toNat - (ch '0').toNat)) % 2 ^ 32)
    else some (i, c :: str)

/-! ### The conversion buffer -/

/-- `PRINTF_NTOA_BUFFER_SIZE`. -/
def ntoaBufferSize : ℕ := 32

/-- The locals `buf` and `len`; a cell is empty until something is stored there. -/
structure Conversion where
  buf : ℕ → Option Byte
  len : ℕ

/-- `buf[len++] = c`. -/
def Conversion.push (b : Conversion) (c : Byte) : Option Conversion :=
  if b.len < ntoaBufferSize then some ⟨Function.update b.buf b.len (some c), b.len + 1⟩ else none

/-- `len--`. -/
def Conversion.pop (b : Conversion) : Option Conversion :=
  if b.len = 0 then none else some { b with len := b.len - 1 }

section Output

variable {σ : Type} (out : OutFct σ) (maxlen : ℕ)

/-- A loop that outputs `n` spaces. -/
def spaces : ℕ → Cursor σ → Cursor σ
  | 0, o => o
  | n + 1, o => spaces n (put out maxlen (ch ' ') o)

/-- `while (len) out(buf[--len], …)`. -/
def outCells (buf : ℕ → Option Byte) : ℕ → Cursor σ → Option (Cursor σ)
  | 0, o => some o
  | len + 1, o => do
    let c ← buf len
    outCells buf len (put out maxlen c o)

/-- `_out_rev`. -/
def outRev (b : Conversion) (width : ℕ) (flags : Flags) (o : Cursor σ) : Option (Cursor σ) := do
  let startIdx := o.idx
  let o := if !flags.left && !flags.zeropad then spaces out maxlen (width - b.len) o else o
  let o ← outCells out maxlen b.buf b.len o
  if flags.left then some (spaces out maxlen (width - (o.idx - startIdx)) o) else some o

/-! ### `_ntoa_format` -/

/-- A padding loop, `while (len < bound && len < PRINTF_NTOA_BUFFER_SIZE) buf[len++] = '0'`, of at
most `fuel` rounds. -/
def padZeros (bound : ℕ) : ℕ → Conversion → Option Conversion
  | 0, b => if b.len < bound ∧ b.len < ntoaBufferSize then none else some b
  | fuel + 1, b =>
    if b.len < bound ∧ b.len < ntoaBufferSize then do
      let b ← b.push (ch '0')
      padZeros bound fuel b
    else some b

/-- The field width left for the digits when a sign goes in front of padding zeros. -/
def digitsWidth (negative : Bool) (width : ℕ) (flags : Flags) : ℕ :=
  if !flags.left && (width ≠ 0 && flags.zeropad && (negative || flags.plus || flags.space))
  then width - 1 else width

/-- "pad leading zeros" -/
def leadingZeros (prec width : ℕ) (flags : Flags) (b : Conversion) : Option Conversion :=
  if flags.left then some b
  else do
    let b ← padZeros prec ntoaBufferSize b
    if flags.zeropad then padZeros width ntoaBufferSize b else some b

/-- "handle hash", the zeros given up for the prefix. -/
def makeRoom (base : BitVec 32) (prec width : ℕ) (flags : Flags) (b : Conversion) :
    Option Conversion :=
  if !flags.precision ∧ b.len ≠ 0 ∧ (b.len = prec ∨ b.len = width) then do
    let b ← b.pop
    if b.len ≠ 0 ∧ base = 16 then b.pop else some b
  else some b

/-- "handle hash", the letter of the prefix. -/
def baseLetter (base : BitVec 32) (b : Conversion) : Option Conversion :=
  if base = 16 ∧ b.len < ntoaBufferSize then b.push (ch 'x')
  else if base = 2 ∧ b.len < ntoaBufferSize then b.push (ch 'b')
  else some b

/-- "handle hash" -/
def hashPrefix (base : BitVec 32) (prec width : ℕ) (flags : Flags) (b : Conversion) :
    Option Conversion :=
  if flags.hash then do
    let b ← makeRoom base prec width flags b
    let b ← baseLetter base b
    if b.len < ntoaBufferSize then b.push (ch '0') else some b
  else some b

def signChar (negative : Bool) (flags : Flags) (b : Conversion) : Option Conversion :=
  if b.len < ntoaBufferSize then
    if negative then b.push (ch '-')
    else if flags.plus then b.push (ch '+')
    else if flags.space then b.push (ch ' ')
    else some b
  else some b

/-- `_ntoa_format`. -/
def ntoaFormat (b : Conversion) (negative : Bool) (base : BitVec 32) (prec width : ℕ)
    (flags : Flags) (o : Cursor σ) : Option (Cursor σ) := do
  let width := digitsWidth negative width flags
  let b ← leadingZeros prec width flags b
  let b ← hashPrefix base prec width flags b
  let b ← signChar negative flags b
  outRev out maxlen b width flags o

/-! ### `_ntoa_long` and `_ntoa_long_long` -/

/-- The character of a digit; `digit` is a signed `char`. -/
def digitChar (uppercase : Bool) (digit : Byte) : Byte :=
  if digit.slt 10 then ch '0' + digit else (if uppercase then ch 'A' else ch 'a') + digit - 10

/-- The digit loop, of at most `fuel` rounds. -/
def digitLoop (base : Word) (uppercase : Bool) : ℕ → Word → Conversion → Option Conversion
  | 0, _, _ => none
  | fuel + 1, value, b => do
    let b ← b.push (digitChar uppercase ((value % base).setWidth 8))
    if value / base ≠ 0 ∧ b.len < ntoaBufferSize then digitLoop base uppercase fuel (value / base) b
    else some b

/-- "write if precision != 0 and value is != 0", into the empty buffer. -/
def convertDigits (value base : Word) (flags : Flags) : Option Conversion :=
  if !flags.precision ∨ value ≠ 0 then
    digitLoop base flags.uppercase ntoaBufferSize value ⟨fun _ => none, 0⟩
  else some ⟨fun _ => none, 0⟩

/-- The body `_ntoa_long` and `_ntoa_long_long` share: both types have 64 bits. -/
def ntoa (value : Word) (negative : Bool) (base : Word) (prec width : ℕ) (flags : Flags)
    (o : Cursor σ) : Option (Cursor σ) := do
  let flags := if value = 0 then { flags with hash := false } else flags
  let b ← convertDigits value base flags
  ntoaFormat out maxlen b negative (base.setWidth 32) prec width flags o

/-- `_ntoa_long`. -/
def ntoaLong := @ntoa

/-- `_ntoa_long_long`. -/
def ntoaLongLong := @ntoa

/-! ### Directives -/

/-- The locals a directive sets: `flags`, `width` and `precision`. -/
structure Spec where
  flags : Flags
  width : ℕ
  precision : ℕ
deriving DecidableEq

/-- "evaluate flags" -/
def scanFlags : List Byte → Flags → Option (Flags × List Byte)
  | [], _ => none
  | c :: format, flags =>
    if c = ch '0' then scanFlags format { flags with zeropad := true }
    else if c = ch '-' then scanFlags format { flags with left := true }
    else if c = ch '+' then scanFlags format { flags with plus := true }
    else if c = ch ' ' then scanFlags format { flags with space := true }
    else if c = ch '#' then scanFlags format { flags with hash := true }
    else some (flags, c :: format)

/-- "evaluate width field" -/
def scanWidth (flags : Flags) : List Byte → List Arg → Option (Flags × ℕ × List Byte × List Arg)
  | [], _ => none
  | c :: format, va =>
    if isDigit c then do
      let (width, format) ← atoi (c :: format) 0
      some (flags, width, format, va)
    else if c = ch '*' then
      match va with
      | [] => none
      | a :: va =>
        if a.int.slt 0 then some ({ flags with left := true }, (-a.int).toNat, format, va)
        else some (flags, a.int.toNat, format, va)
    else some (flags, 0, c :: format, va)

/-- "evaluate precision field" -/
def scanPrecision (flags : Flags) : List Byte → List Arg →
    Option (Flags × ℕ × List Byte × List Arg)
  | [], _ => none
  | c :: format, va =>
    if c = ch '.' then
      let flags := { flags with precision := true }
      match format with
      | [] => none
      | c :: format =>
        if isDigit c then do
          let (precision, format) ← atoi (c :: format) 0
          some (flags, precision, format, va)
        else if c = ch '*' then
          match va with
          | [] => none
          | a :: va => some (flags, if (0#32).slt a.int then a.int.toNat else 0, format, va)
        else some (flags, 0, c :: format, va)
    else some (flags, 0, c :: format, va)

/-- "evaluate length field" -/
def scanLength (flags : Flags) : List Byte → Option (Flags × List Byte)
  | [] => none
  | c :: format =>
    if c = ch 'l' then
      let flags := { flags with long := true }
      match format with
      | [] => none
      | c :: format =>
        if c = ch 'l' then some ({ flags with longLong := true }, format)
        else some (flags, c :: format)
    else if c = ch 'h' then
      let flags := { flags with short := true }
      match format with
      | [] => none
      | c :: format =>
        if c = ch 'h' then some ({ flags with char := true }, format)
        else some (flags, c :: format)
    else if c = ch 't' then some ({ flags with long := true }, format)
    else if c = ch 'j' then some ({ flags with long := true }, format)
    else if c = ch 'z' then some ({ flags with long := true }, format)
    else some (flags, c :: format)

/-- `[flags][width][.precision][length]` -/
def scanDirective (format : List Byte) (va : List Arg) : Option (Spec × List Byte × List Arg) := do
  let (flags, format) ← scanFlags format {}
  let (flags, width, format, va) ← scanWidth flags format va
  let (flags, precision, format, va) ← scanPrecision flags format va
  let (flags, format) ← scanLength flags format
  some (⟨flags, width, precision⟩, format, va)

/-! ### Specifiers -/

/-- `value > 0 ? value : 0 - value`, wrapping: so the build takes it for a `long`. -/
def magnitude {w : ℕ} (value : BitVec w) : BitVec w :=
  if (0#w).slt value then value else 0 - value

/-- The same of an `int`, as `_ntoa_long` gets it. At the minimum the negation overflows, which C++
leaves undefined: the `-O2` of the Makefile takes its result for non-negative, drops the conversion
to `unsigned int` and extends the sign. -/
def intMagnitude (value : BitVec 32) : Word := (magnitude value).signExtend 64

/-- The `value` of a signed conversion that is not long. -/
def intValue (flags : Flags) (a : Arg) : BitVec 32 :=
  if flags.char then (a.int.setWidth 8).signExtend 32
  else if flags.short then (a.int.setWidth 16).signExtend 32
  else a.int

/-- The `value` of an unsigned conversion that is not long. -/
def uintValue (flags : Flags) (a : Arg) : BitVec 32 :=
  if flags.char then (a.int.setWidth 8).setWidth 32
  else if flags.short then (a.int.setWidth 16).setWidth 32
  else a.int

/-- The base of an integer specifier. -/
def baseOf (c : Byte) : Word :=
  if c = ch 'x' ∨ c = ch 'X' then 16
  else if c = ch 'o' then 8
  else if c = ch 'b' then 2
  else 10

def isSigned (c : Byte) : Bool := c = ch 'i' || c = ch 'd'

/-- The flags of an integer specifier: no `#` for decimals, no `+` and space for unsigned ones, no
`0` with a precision. -/
def integerFlags (c : Byte) (flags : Flags) : Flags :=
  let flags := if baseOf c = 10 then { flags with hash := false } else flags
  let flags := if c = ch 'X' then { flags with uppercase := true } else flags
  let flags := if !isSigned c then { flags with plus := false, space := false } else flags
  if flags.precision then { flags with zeropad := false } else flags

/-- `d`, `i`, `u`, `x`, `X`, `o` and `b`. -/
def outInteger (c : Byte) (s : Spec) (a : Arg) (o : Cursor σ) : Option (Cursor σ) :=
  let flags := integerFlags c s.flags
  if isSigned c then
    if flags.longLong then
      ntoaLongLong out maxlen (magnitude a.word) (a.word.slt 0) (baseOf c) s.precision s.width flags o
    else if flags.long then
      ntoaLong out maxlen (magnitude a.word) (a.word.slt 0) (baseOf c) s.precision s.width flags o
    else
      ntoaLong out maxlen (intMagnitude (intValue flags a)) ((intValue flags a).slt 0)
        (baseOf c) s.precision s.width flags o
  else
    if flags.longLong then
      ntoaLongLong out maxlen a.word false (baseOf c) s.precision s.width flags o
    else if flags.long then
      ntoaLong out maxlen a.word false (baseOf c) s.precision s.width flags o
    else
      ntoaLong out maxlen ((uintValue flags a).setWidth 64) false (baseOf c) s.precision s.width
        flags o

/-- `c`: the counter `l` starts at 1. -/
def outCharacter (s : Spec) (a : Arg) (o : Cursor σ) : Cursor σ :=
  let o := if !s.flags.left then spaces out maxlen (s.width - 1) o else o
  let o := put out maxlen (a.int.setWidth 8) o
  if s.flags.left then spaces out maxlen (s.width - 1) o else o

/-- The output loop of `s`; `limit` is the precision when one is given. -/
def outBytes : List Byte → Option ℕ → Cursor σ → Option (Cursor σ)
  | [], _, _ => none
  | c :: p, limit, o =>
    if c = 0 then some o
    else
      match limit with
      | none => outBytes p none (put out maxlen c o)
      | some 0 => some o
      | some (n + 1) => outBytes p (some n) (put out maxlen c o)

/-- `s`. -/
def outString (s : Spec) (a : Arg) (o : Cursor σ) : Option (Cursor σ) := do
  let n ← strnlenS a.bytes (if s.precision ≠ 0 then s.precision else 2 ^ 64 - 1)
  let l := n % 2 ^ 32
  let l := if s.flags.precision then min l s.precision else l
  let o := if !s.flags.left then spaces out maxlen (s.width - l) o else o
  let o ← outBytes out maxlen a.bytes (if s.flags.precision then some s.precision else none) o
  if s.flags.left then some (spaces out maxlen (s.width - l) o) else some o

/-- `p`: sixteen digits and capitals, whatever the directive asks for. -/
def outPointer (s : Spec) (a : Arg) (o : Cursor σ) : Option (Cursor σ) :=
  ntoaLongLong out maxlen a.word false 16 s.precision 16
    { s.flags with zeropad := true, uppercase := true } o

def isInteger (c : Byte) : Bool :=
  c = ch 'd' || c = ch 'i' || c = ch 'u' || c = ch 'x' || c = ch 'X' || c = ch 'o' || c = ch 'b'

/-- "evaluate specifier": what `*format` asks for. A character that is no specifier is output. -/
def outSpecifier (c : Byte) (s : Spec) (va : List Arg) (o : Cursor σ) :
    Option (List Arg × Cursor σ) :=
  if isInteger c then
    match va with
    | [] => none
    | a :: va => (outInteger out maxlen c s a o).map (va, ·)
  else if c = ch 'c' then
    match va with
    | [] => none
    | a :: va => some (va, outCharacter out maxlen s a o)
  else if c = ch 's' then
    match va with
    | [] => none
    | a :: va => (outString out maxlen s a o).map (va, ·)
  else if c = ch 'p' then
    match va with
    | [] => none
    | a :: va => (outPointer out maxlen s a o).map (va, ·)
  else if c = ch '%' then some (va, put out maxlen (ch '%') o)
  else some (va, put out maxlen c o)

/-- The loop of `_vsnprintf`, of at most `fuel` rounds: where `format` points at its end, and the
output. -/
def vsnprintfLoop : ℕ → List Byte → List Arg → Cursor σ → Option (List Byte × Cursor σ)
  | 0, _, _, _ => none
  | _ + 1, [], _, _ => none
  | fuel + 1, c :: format, va, o =>
    if c = 0 then some (c :: format, o)
    else if c ≠ ch '%' then vsnprintfLoop fuel format va (put out maxlen c o)
    else do
      let (s, format, va) ← scanDirective format va
      match format with
      | [] => none
      | c :: format =>
        let (va, o) ← outSpecifier out maxlen c s va o
        vsnprintfLoop fuel format va o

/-- `_vsnprintf`: the returned value and the state of the sink. A null `buffer` replaces the output
function. -/
def internalVsnprintf (isNull : Bool) (format : List Byte) (va : List Arg) (buffer : σ) :
    Option (ℤ × σ) := do
  let out := if isNull then outNull else out
  let (_, o) ← vsnprintfLoop out maxlen (format.length + 1) format va ⟨0, buffer⟩
  let last := if o.idx < maxlen then o.idx else (maxlen + 2 ^ 64 - 1) % 2 ^ 64
  some ((BitVec.ofNat 32 o.idx).toInt, out 0 last maxlen o.state)

end Output

/-! ### The functions of `logging.hpp` that fill a buffer

Their result is the returned value and the stores into the buffer. -/

/-- `(size_t) -1`. -/
def sizeMax : ℕ := 2 ^ 64 - 1

def sprintf (format : List Byte) (va : List Arg) : Option (ℤ × Stores Byte) :=
  internalVsnprintf outBuffer sizeMax false format va []

def vsnprintf (isNull : Bool) (count : ℕ) (format : List Byte) (va : List Arg) :
    Option (ℤ × Stores Byte) :=
  internalVsnprintf outBuffer count isNull format va []

def snprintf (isNull : Bool) (count : ℕ) (format : List Byte) (va : List Arg) :
    Option (ℤ × Stores Byte) :=
  internalVsnprintf outBuffer count isNull format va []

end MegaOS.Log
