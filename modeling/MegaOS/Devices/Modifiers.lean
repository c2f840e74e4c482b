import MegaOS.Devices.Keyboard
import MegaOS.Foundation.Runs

/-!
# The modifiers as a function of the history

Scancodes handled one after the other, from `key_up = 0`. Shift is held when the
last shift code was a press, caps lock is on after an odd number of its codes:
the two bits of `key_up` say that after every history, and what each scancode
prints depends on the history before it and on nothing else.
-/

namespace MegaOS.Modifiers

open MegaOS.Memory MegaOS.Log MegaOS.Keyboard MegaOS.Runs

/-! ### Map accesses -/

/-- `kmap[i]`, without a check: past the end it is a fault. -/
def kmapAt (upper : Bool) (i : ℕ) : Option Byte := (kmapFor upper).toList[i]?

/-- `controller::irq_handler` with its map accesses. -/
def irqHandlerUnchecked (keyUp code : Byte) : Option (Byte × List Op) :=
  if code = 0x2A then some (keyUp ||| 0b01, [])
  else if code = 0xAA then some (keyUp &&& 0b10, [])
  else if code = 0x3A then some (keyUp ^^^ 0b10, [])
  else if code = 0x0E then do
    let r ← kprint (some (cstr "\x08 \x08"))
    some (keyUp, r.2)
  else if code = 0x0F then some (keyUp, [.kputc (ch '\t')])
  else if code = 0x1C then some (keyUp, [.kputc (ch '\n')])
  else if code.toNat < 58 then do
    let c ← kmapAt (keyUp ≠ 0) code.toNat
    some (keyUp, [.kputc c])
  else some (keyUp, [])

theorem kmapAt_of_lt (upper : Bool) {i : ℕ} (hi : i < 58) :
    kmapAt upper i = some ((kmapFor upper).get ⟨i, hi⟩) := by
  have hlen : (kmapFor upper).toList.length = 58 := (kmapFor upper).toList_length
  rw [kmapAt, List.getElem?_eq_getElem (by rw [hlen]; exact hi)]
  rfl

/-- The maps are indexed below their 58 entries. -/
theorem irqHandlerUnchecked_eq (keyUp code : Byte) :
    irqHandlerUnchecked keyUp code = irqHandler keyUp code := by
  by_cases hlt : code.toNat < 58
  · rw [irqHandlerUnchecked, irqHandler, if_pos hlt, dif_pos hlt, kmapAt_of_lt _ hlt]
    rfl
  · rw [irqHandlerUnchecked, irqHandler, if_neg hlt, dif_neg hlt]

/-! ### Histories -/

/-- One scancode: the handler runs with the log. -/
def keyboard : Machine (Byte × Console) Byte where
  step := fun (keyUp, s) code => do
    let (keyUp, ops) ← irqHandlerUnchecked keyUp code
    some (keyUp, s.execAll ops)

/-- The last of the shift codes was a press. -/
def shiftHeld (history : List Byte) : Bool :=
  (history.filter fun c => c = 0x2A || c = 0xAA).getLast? = some 0x2A

def capsLockOn (history : List Byte) : Bool := history.count 0x3A % 2 = 1

/-- The characters of the scancodes that follow a history. -/
def typedAfter (before : List Byte) : List Byte → List Byte
  | [] => []
  | code :: codes =>
    keyText (shiftHeld before || capsLockOn before) code ++ typedAfter (before ++ [code]) codes

theorem shiftHeld_concat (before : List Byte) (code : Byte) :
    shiftHeld (before ++ [code]) = shiftAfter code (shiftHeld before) := by
  rw [shiftAfter]
  by_cases h2A : code = 0x2A
  · subst h2A
    simp [shiftHeld]
  by_cases hAA : code = 0xAA
  · subst hAA
    simp [shiftHeld]
  · rw [if_neg h2A, if_neg hAA, shiftHeld, List.filter_append,
      List.filter_cons_of_neg (by simpa using ⟨h2A, hAA⟩), List.filter_nil, List.append_nil,
      shiftHeld]

theorem capsLockOn_concat (before : List Byte) (code : Byte) :
    capsLockOn (before ++ [code]) = capsAfter code (capsLockOn before) := by
  rw [capsAfter, capsLockOn, List.count_append]
  by_cases h3A : code = 0x3A
  · subst h3A
    rw [if_pos rfl, List.count_singleton_self, capsLockOn, ← decide_not]
    exact decide_eq_decide.mpr (by omega)
  · rw [if_neg h3A, List.count_eq_zero_of_not_mem (fun h => h3A (List.mem_singleton.mp h).symm),
      Nat.add_zero, capsLockOn]

/-- What the terminal receives. -/
def toTerminal (s : Console) (text : List Byte) : Console :=
  { s with trace := s.trace ++ text.map fun c => ⟨.kernel, .terminal s.write, c⟩ }

/-- One scancode, after a history. -/
theorem keyboard_step (before : List Byte) (code : Byte) {s : Console}
    (hserial : s.useSerial = false) (hhalted : s.halted = false) :
    keyboard.step (bits (shiftHeld before) (capsLockOn before), s) code =
      some (bits (shiftHeld (before ++ [code])) (capsLockOn (before ++ [code])),
        toTerminal s (keyText (shiftHeld before || capsLockOn before) code)) := by
  have hexec := execAll_keySteps (shiftHeld before || capsLockOn before) code hserial hhalted
  show (irqHandlerUnchecked (bits (shiftHeld before) (capsLockOn before)) code).bind _ = _
  rw [irqHandlerUnchecked_eq, irqHandler_bits, Option.bind_some, shiftHeld_concat,
    capsLockOn_concat, toTerminal, ← hexec]

/-- A run, by induction on the scancodes to come. -/
theorem keyboard_run (before codes : List Byte) {s : Console} (hserial : s.useSerial = false)
    (hhalted : s.halted = false) :
    keyboard.run (bits (shiftHeld before) (capsLockOn before), s) codes =
      some (bits (shiftHeld (before ++ codes)) (capsLockOn (before ++ codes)),
        toTerminal s (typedAfter before codes)) := by
  induction codes generalizing before s with
  | nil => simp [Machine.run, typedAfter, toTerminal]
  | cons code codes ih =>
    have hrest := ih (before ++ [code])
      (s := toTerminal s (keyText (shiftHeld before || capsLockOn before) code)) hserial hhalted
    rw [Machine.run_cons (keyboard_step before code hserial hhalted), hrest, List.append_assoc,
      typedAfter]
    simp [toTerminal]

theorem bits_getLsbD (shift caps : Bool) : (bits shift caps).getLsbD 0 = shift ∧
    (bits shift caps).getLsbD 1 = caps ∧ ∀ i, 2 ≤ i → (bits shift caps).getLsbD i = false := by
  have hlt : (bits shift caps).toNat < 2 ^ 2 := by cases shift <;> cases caps <;> decide
  refine ⟨?_, ?_, ?_⟩
  · cases shift <;> cases caps <;> rfl
  · cases shift <;> cases caps <;> rfl
  · intro i hi
    exact Nat.testBit_lt_two_pow (Nat.lt_of_lt_of_le hlt (Nat.pow_le_pow_right (by decide) hi))

/-- **Modifiers and output are functions of the history**: for every sequence of scancodes, the two
bits of `key_up`, and what reaches the terminal. -/
theorem key_up_of_history (codes : List Byte) (s : Console) (hserial : s.useSerial = false)
    (hhalted : s.halted = false) :
    ∃ keyUp s', keyboard.run (0, s) codes = some (keyUp, s') ∧
      keyUp.getLsbD 0 = shiftHeld codes ∧ keyUp.getLsbD 1 = capsLockOn codes ∧
      (∀ i, 2 ≤ i → keyUp.getLsbD i = false) ∧
      s'.trace = s.trace ++ (typedAfter [] codes).map fun c => ⟨.kernel, .terminal s.write, c⟩ := by
  obtain ⟨hshift, hcaps, hrest⟩ := bits_getLsbD (shiftHeld codes) (capsLockOn codes)
  exact ⟨_, _, keyboard_run [] codes hserial hhalted, hshift, hcaps, hrest, rfl⟩

/-- Shift and `q`, then caps lock, backspace and a release. -/
theorem key_up_of_history_typing :
    ∃ keyUp s', keyboard.run (0, ⟨0x1000, false, false, []⟩)
        [0x2A, 0x1E, 0xAA, 0x3A, 0x0E, 0x9E] = some (keyUp, s') ∧
      keyUp.getLsbD 0 = shiftHeld [0x2A, 0x1E, 0xAA, 0x3A, 0x0E, 0x9E] ∧
      keyUp.getLsbD 1 = capsLockOn [0x2A, 0x1E, 0xAA, 0x3A, 0x0E, 0x9E] ∧
      (∀ i, 2 ≤ i → keyUp.getLsbD i = false) ∧
      s'.trace = [] ++ (typedAfter [] [0x2A, 0x1E, 0xAA, 0x3A, 0x0E, 0x9E]).map
        fun c => ⟨.kernel, .terminal 0x1000, c⟩ :=
  key_up_of_history _ ⟨0x1000, false, false, []⟩ rfl rfl

example : typedAfter [] [0x2A, 0x1E, 0xAA, 0x1E, 0x3A, 0x0E, 0x1E, 0x9E] =
    "Qq\x08 \x08Q".toList.map ch := by
  decide

end MegaOS.Modifiers
