import Mathlib.Data.Vector.Defs
import MegaOS.Log.Console

/-!
# The keyboard interrupt handler

`controller::irq_handler`, one scancode a call. It keeps two bits in `key_up`,
shift in bit 0 and caps lock in bit 1, and prints through `kputc` and `kprint`.
-/

namespace MegaOS.Keyboard

open MegaOS.Memory MegaOS.Log

def kmapLower : List.Vector Byte 58 :=
  ⟨['\x00', '\x00', '&', '\x00', '"', '\'', '(', '-', '\x00', '_', '\x00', '\x00',
    ')', '=', '\x08', '\t', 'a', 'z', 'e', 'r', 't', 'y', 'u', 'i',
    'o', 'p', '^', '$', '\x00', '\x00', 'q', 's', 'd', 'f', 'g', 'h',
    'j', 'k', 'l', 'm', '\x00', '`', '\x00', '*', 'w', 'x', 'c', 'v',
    'b', 'n', ',', ';', ':', '!', '\x00', '\x00', '\x00', ' '].map ch, rfl⟩

def kmapUpper : List.Vector Byte 58 :=
  ⟨['\x00', '\x00', '1', '2', '3', '4', '5', '6', '7', '8', '9', '0',
    '\x00', '+', '\x08', '\t', 'A', 'Z', 'E', 'R', 'T', 'Y', 'U', 'I',
    'O', 'P', '\x00', '}', '\x00', '\x00', 'Q', 'S', 'D', 'F', 'G', 'H',
    'J', 'K', 'L', 'M', '%', '~', '\x00', '\\', 'W', 'X', 'C', 'V',
    'B', 'N', '?', '.', '/', '\x00', '\x00', '\x00', '\x00', ' '].map ch, rfl⟩

/-- The map `key_up` selects. -/
def kmapFor (upper : Bool) : List.Vector Byte 58 := if upper then kmapUpper else kmapLower

/-- `controller::irq_handler` for the `code` read from the data port: the new `key_up` and the steps
of the log. -/
def irqHandler (keyUp code : Byte) : Option (Byte × List Op) :=
  if code = 0x2A then some (keyUp ||| 0b01, [])        -- left shift pressed
  else if code = 0xAA then some (keyUp &&& 0b10, [])   -- left shift released
  else if code = 0x3A then some (keyUp ^^^ 0b10, [])   -- caps lock pressed
  else if code = 0x0E then do                          -- backspace
    let r ← kprint (some (cstr "\x08 \x08"))
    some (keyUp, r.2)
  else if code = 0x0F then some (keyUp, [.kputc (ch '\t')])
  else if code = 0x1C then some (keyUp, [.kputc (ch '\n')])
  else if h : code.toNat < 58 then some (keyUp, [.kputc ((kmapFor (keyUp ≠ 0)).get ⟨code.toNat, h⟩)])
  else some (keyUp, [])

/-! ### What a scancode does -/

/-- `key_up` with the two modifiers. -/
def bits (shift caps : Bool) : Byte := (if shift then 0b01 else 0) ||| (if caps then 0b10 else 0)

theorem bits_ne_zero (shift caps : Bool) : (bits shift caps ≠ 0 : Bool) = (shift || caps) := by
  cases shift <;> cases caps <;> rfl

/-- The shift bit after a scancode. -/
def shiftAfter (code : Byte) (shift : Bool) : Bool :=
  if code = 0x2A then true else if code = 0xAA then false else shift

/-- The caps lock bit after a scancode. -/
def capsAfter (code : Byte) (caps : Bool) : Bool := if code = 0x3A then !caps else caps

/-- The steps of the log for a scancode, given the map it is looked up in. -/
def keySteps (upper : Bool) (code : Byte) : List Op :=
  if code = 0x2A then []
  else if code = 0x0E then chars .kernel [ch '\x08', ch ' ', ch '\x08']
  else if code = 0x0F then [.kputc (ch '\t')]
  else if code = 0x1C then [.kputc (ch '\n')]
  else if h : code.toNat < 58 then [.kputc ((kmapFor upper).get ⟨code.toNat, h⟩)]
  else []

/-- `key_up` after a scancode. -/
def keyUpAfter (keyUp code : Byte) : Byte :=
  if code = 0x2A then keyUp ||| 0b01
  else if code = 0xAA then keyUp &&& 0b10
  else if code = 0x3A then keyUp ^^^ 0b10
  else keyUp

/-- The handler returns, for every `key_up` and every scancode. -/
theorem irqHandler_eq (keyUp code : Byte) :
    irqHandler keyUp code = some (keyUpAfter keyUp code, keySteps (keyUp ≠ 0) code) := by
  rw [irqHandler, keyUpAfter, keySteps]
  by_cases h2A : code = 0x2A
  · rw [if_pos h2A, if_pos h2A, if_pos h2A]
  by_cases hAA : code = 0xAA
  · subst hAA
    rfl
  by_cases h3A : code = 0x3A
  · subst h3A
    rfl
  rw [if_neg h2A, if_neg hAA, if_neg h3A, if_neg h2A, if_neg hAA, if_neg h3A, if_neg h2A]
  by_cases h0E : code = 0x0E
  · rw [if_pos h0E, if_pos h0E]
    rfl
  by_cases h0F : code = 0x0F
  · rw [if_neg h0E, if_pos h0F, if_neg h0E, if_pos h0F]
  by_cases h1C : code = 0x1C
  · rw [if_neg h0E, if_neg h0F, if_pos h1C, if_neg h0E, if_neg h0F, if_pos h1C]
  rw [if_neg h0E, if_neg h0F, if_neg h1C, if_neg h0E, if_neg h0F, if_neg h1C]
  split <;> rfl

/-- Each modifier is changed by its own codes only. -/
theorem keyUpAfter_bits (shift caps : Bool) (code : Byte) :
    keyUpAfter (bits shift caps) code = bits (shiftAfter code shift) (capsAfter code caps) := by
  rw [keyUpAfter, shiftAfter, capsAfter]
  by_cases h2A : code = 0x2A
  · subst h2A
    cases shift <;> cases caps <;> rfl
  by_cases hAA : code = 0xAA
  · subst hAA
    cases shift <;> cases caps <;> rfl
  by_cases h3A : code = 0x3A
  · subst h3A
    cases shift <;> cases caps <;> rfl
  rw [if_neg h2A, if_neg hAA, if_neg h3A, if_neg h2A, if_neg hAA, if_neg h3A]

/-- **The handler** on the two modifiers: keys are looked up in the upper map when one is set. -/
theorem irqHandler_bits (shift caps : Bool) (code : Byte) :
    irqHandler (bits shift caps) code =
      some (bits (shiftAfter code shift) (capsAfter code caps), keySteps (shift || caps) code) := by
  rw [irqHandler_eq, keyUpAfter_bits, bits_ne_zero]

/-! ### What a scancode prints -/

/-- The characters printed for a scancode. -/
def keyText (upper : Bool) (code : Byte) : List Byte :=
  if code = 0x2A then []
  else if code = 0x0E then [ch '\x08', ch ' ', ch '\x08']
  else if code = 0x0F then [ch '\t']
  else if code = 0x1C then [ch '\n']
  else if h : code.toNat < 58 then [(kmapFor upper).get ⟨code.toNat, h⟩]
  else []

/-- While `use_serial` is clear, all of them go to the terminal. -/
theorem execAll_keySteps (upper : Bool) (code : Byte) {s : Console} (hserial : s.useSerial = false)
    (hhalted : s.halted = false) :
    s.execAll (keySteps upper code) =
      { s with
        trace := s.trace ++ (keyText upper code).map fun c => ⟨.kernel, .terminal s.write, c⟩ } := by
  have hone : ∀ c, s.execAll [.kputc c] =
      { s with trace := s.trace ++ [c].map fun c => ⟨.kernel, .terminal s.write, c⟩ } := by
    intro c
    rw [execAll_cons _ _ hhalted]
    rfl
  rw [keySteps, keyText]
  by_cases h2A : code = 0x2A
  · rw [if_pos h2A, if_pos h2A, List.map_nil, List.append_nil]
    rfl
  rw [if_neg h2A, if_neg h2A]
  by_cases h0E : code = 0x0E
  · rw [if_pos h0E, if_pos h0E, execAll_chars _ _ hhalted]
    simp [outCharFuncs, hserial, kputc, List.flatMap]
  rw [if_neg h0E, if_neg h0E]
  by_cases h0F : code = 0x0F
  · rw [if_pos h0F, if_pos h0F, hone]
  rw [if_neg h0F, if_neg h0F]
  by_cases h1C : code = 0x1C
  · rw [if_pos h1C, if_pos h1C, hone]
  rw [if_neg h1C, if_neg h1C]
  by_cases hlt : code.toNat < 58
  · rw [dif_pos hlt, dif_pos hlt, hone]
  · rw [dif_neg hlt, dif_neg hlt, List.map_nil, List.append_nil]
    rfl

end MegaOS.Keyboard
