import MegaOS.Devices.Keyboard
import MegaOS.Foundation.Runs

/-!
# Decoding what is typed

The keys of a keyboard that sends scancode set 1, pressed, held down and
released, and the bytes it sends for that, each handled by `irq_handler`.

The handler takes every byte for itself: it does not remember the `0xE0` in front
of an extended key's code, nor which keys are down, and it prints the `'\0'` that
stands in the maps for "no character".
-/

namespace MegaOS.Keyboard

open MegaOS.Memory MegaOS.Log MegaOS.Runs

/-- A key: its 7-bit make code, and whether `0xE0` is sent in front. No key's release sends the
byte `0xE0` itself. -/
structure Key where
  ext : Bool
  code : BitVec 7
  code_ne : code ≠ 0x60
  deriving DecidableEq

def Key.make (k : Key) : Byte := k.code.setWidth 8

def leftShift : Key := ⟨false, 0x2A, by decide⟩

def capsLock : Key := ⟨false, 0x3A, by decide⟩

/-- What happens to a key; a key that is held repeats its make code. -/
inductive KeyEvent
  | press (k : Key)
  | hold (k : Key)
  | release (k : Key)

def KeyEvent.key : KeyEvent → Key
  | .press k | .hold k | .release k => k

def KeyEvent.code : KeyEvent → Byte
  | .press k | .hold k => k.make
  | .release k => k.make ||| 0x80

/-- The bytes the keyboard sends. -/
def KeyEvent.bytes (e : KeyEvent) : List Byte := if e.key.ext then [0xE0, e.code] else [e.code]

/-- The keys that are down and how often caps lock was pressed; the decoder and the log. -/
structure State where
  held : Key → Bool
  capsPresses : ℕ
  keyUp : Byte
  console : Console

def State.shift (s : State) : Bool := s.held leftShift

def State.caps (s : State) : Bool := s.capsPresses % 2 = 1

/-- The map the modifiers select. -/
def State.upper (s : State) : Bool := s.shift || s.caps

/-- A key is pressed when it is up; it repeats and is released when it is down. -/
def KeyEvent.possible (held : Key → Bool) : KeyEvent → Bool
  | .press k => !held k
  | .hold k | .release k => held k

/-- The keys after an event. -/
def State.move (s : State) : KeyEvent → State
  | .press k =>
    { s with
      held := Function.update s.held k true
      capsPresses := if k = capsLock then s.capsPresses + 1 else s.capsPresses }
  | .hold _ => s
  | .release k => { s with held := Function.update s.held k false }

/-- One interrupt of the keyboard. -/
def State.irq (s : State) (code : Byte) : Option State :=
  (irqHandler s.keyUp code).map fun r =>
    { s with keyUp := r.1, console := s.console.execAll r.2 }

def State.irqs (s : State) : List Byte → Option State
  | [] => some s
  | code :: codes => do
    let s ← s.irq code
    s.irqs codes

def step (s : State) (e : KeyEvent) : Option State :=
  if e.possible s.held then (s.irqs e.bytes).map fun s => s.move e else none

def keyboard : Machine State KeyEvent := ⟨step⟩

/-- All keys up, the decoder and the log as `_start` leaves them. -/
def Fresh (s : State) : Prop :=
  s.held = (fun _ => false) ∧ s.capsPresses = 0 ∧ s.keyUp = 0 ∧ s.console.useSerial = false ∧
    s.console.halted = false

/-! ### Following the keys -/

/-- The character of an unprefixed key: three keys the handler knows, and those of the map. -/
def keyChar (upper : Bool) (code : Byte) : Option Byte :=
  if code = 0x2A then none
  else if code = 0x0E then some (ch '\x08')
  else if code = 0x0F then some (ch '\t')
  else if code = 0x1C then some (ch '\n')
  else if h : code.toNat < 58 then
    if (kmapFor upper).get ⟨code.toNat, h⟩ = 0 then none
    else some ((kmapFor upper).get ⟨code.toNat, h⟩)
  else none

/-- The bytes output by a step. -/
def written (s s' : State) : List Byte :=
  (s'.console.trace.drop s.console.trace.length).map Emission.byte

section Decoding

-- the character an extended key denotes in the layout, under the given map
variable (extended : Bool → BitVec 7 → Option Byte)

/-- The decoder follows the keys through an event. -/
structure Follows (s : State) (e : KeyEvent) (s' : State) : Prop where
  /-- After the prefix alone nothing has changed. -/
  waits : e.key.ext = true → s.irq 0xE0 = some s
  /-- Caps lock is the parity of its presses. -/
  caps : s'.keyUp.getLsbD 1 = s'.caps
  /-- Shift is set while the left shift key is held. -/
  shift : s'.keyUp.getLsbD 0 = s'.shift
  /-- An extended key changes neither bit. -/
  keeps : e.key.ext = true →
    s'.keyUp.getLsbD 0 = s.keyUp.getLsbD 0 ∧ s'.keyUp.getLsbD 1 = s.keyUp.getLsbD 1
  /-- An extended key does not print as the unprefixed key of its code, unless they denote the same
  character. -/
  prints : e.key.ext = true → ∀ c, keyChar s.upper e.key.make = some c →
    written s s' = keyText s.upper e.key.make → extended s.upper e.key.code = some c
  /-- A key without a character prints nothing. -/
  silent : keyChar s.upper e.key.make = none → written s s' = []

/-- A make code the decoder takes right: not one whose map entry is `'\0'`; if extended, not that of
caps lock, that of shift only while shift is held, and otherwise one that denotes the same character
with and without prefix. -/
def MakeDecodable (s : State) (k : Key) : Prop :=
  ¬(keyChar s.upper k.make = none ∧ k.code ≠ 0x2A ∧ k.code.toNat < 58) ∧
    (k.ext = true → k.code ≠ 0x3A ∧ (k.code = 0x2A → s.shift = true) ∧
      ∀ c, keyChar s.upper k.make = some c → extended s.upper k.code = some c)

/-- An event the decoder takes right. -/
def Decodable (s : State) (e : KeyEvent) (_ : State) : Prop :=
  match e with
  | .press k => MakeDecodable extended s k
  | .hold k => MakeDecodable extended s k ∧ k ≠ capsLock
  | .release k => k.ext = true → k.code = 0x2A → s.shift = false

/-! ### One step -/

/-- The decoder holds the state of the modifiers, and the log writes to the terminal. -/
structure Synced (s : State) : Prop where
  keyUp : s.keyUp = bits s.shift s.caps
  serial : s.console.useSerial = false
  halted : s.console.halted = false

theorem synced_fresh {s : State} (h : Fresh s) : Synced s := by
  obtain ⟨hheld, hcaps, hkey, hserial, hhalted⟩ := h
  refine ⟨?_, hserial, hhalted⟩
  rw [hkey, State.shift, State.caps, hheld, hcaps]
  rfl

/-- A byte's interrupt, in a state where the decoder holds the modifiers. -/
def afterByte (s : State) (code : Byte) : State :=
  { s with
    keyUp := bits (shiftAfter code s.shift) (capsAfter code s.caps)
    console :=
      { s.console with
        trace := s.console.trace ++
          (keyText s.upper code).map fun c => ⟨.kernel, .terminal s.console.write, c⟩ } }

theorem irq_eq {s : State} (hs : Synced s) (code : Byte) :
    s.irq code = some (afterByte s code) := by
  rw [State.irq, hs.keyUp, irqHandler_bits, Option.map_some,
    execAll_keySteps _ _ hs.serial hs.halted]
  rfl

/-- The prefix changes nothing. -/
theorem afterByte_prefix {s : State} (hs : Synced s) : afterByte s 0xE0 = s := by
  have htext : keyText s.upper 0xE0 = [] := rfl
  rw [afterByte, htext, List.map_nil, List.append_nil]
  show { s with keyUp := bits s.shift s.caps } = s
  rw [← hs.keyUp]

theorem irqs_bytes {s : State} (hs : Synced s) (e : KeyEvent) :
    s.irqs e.bytes = some (afterByte s e.code) := by
  rw [KeyEvent.bytes]
  cases e.key.ext with
  | false =>
    show Option.bind (s.irq e.code) some = _
    rw [irq_eq hs]
    rfl
  | true =>
    show Option.bind (s.irq 0xE0) (fun s => Option.bind (s.irq e.code) some) = _
    rw [irq_eq hs, afterByte_prefix hs, Option.bind_some, irq_eq hs]
    rfl

theorem step_of_possible {s : State} {e : KeyEvent} (hs : Synced s)
    (hpos : e.possible s.held = true) : step s e = some ((afterByte s e.code).move e) := by
  rw [step, if_pos hpos, irqs_bytes hs, Option.map_some]

theorem step_eq {s s' : State} {e : KeyEvent} (hs : Synced s) (hstep : step s e = some s') :
    e.possible s.held = true ∧ s' = (afterByte s e.code).move e := by
  by_cases hpos : e.possible s.held = true
  · rw [step_of_possible hs hpos] at hstep
    exact ⟨hpos, (Option.some.inj hstep).symm⟩
  · rw [step, if_neg hpos] at hstep
    exact absurd hstep nofun

theorem move_keyUp (s : State) (e : KeyEvent) : (s.move e).keyUp = s.keyUp := by
  cases e <;> rfl

theorem move_console (s : State) (e : KeyEvent) : (s.move e).console = s.console := by
  cases e <;> rfl

theorem written_eq (s : State) (e : KeyEvent) :
    written s ((afterByte s e.code).move e) = keyText s.upper e.code := by
  rw [written, move_console]
  show List.map _ (List.drop _ (s.console.trace ++ _)) = _
  rw [List.drop_left, List.map_map]
  exact List.map_id _

theorem bits_shift (shift caps : Bool) : (bits shift caps).getLsbD 0 = shift := by
  cases shift <;> cases caps <;> rfl

theorem bits_caps (shift caps : Bool) : (bits shift caps).getLsbD 1 = caps := by
  cases shift <;> cases caps <;> rfl

/-- What following the keys comes to, in a step from a synced state. -/
theorem follows_iff {s : State} {e : KeyEvent} (hs : Synced s) :
    Follows extended s e ((afterByte s e.code).move e) ↔
      capsAfter e.code s.caps = (s.move e).caps ∧ shiftAfter e.code s.shift = (s.move e).shift ∧
      (e.key.ext = true → shiftAfter e.code s.shift = s.shift ∧ capsAfter e.code s.caps = s.caps) ∧
      (e.key.ext = true → ∀ c, keyChar s.upper e.key.make = some c →
        keyText s.upper e.code = keyText s.upper e.key.make → extended s.upper e.key.code = some c) ∧
      (keyChar s.upper e.key.make = none → keyText s.upper e.code = []) := by
  have hcaps : ((afterByte s e.code).move e).caps = (s.move e).caps := by cases e <;> rfl
  have hshift : ((afterByte s e.code).move e).shift = (s.move e).shift := by cases e <;> rfl
  have hkey : ((afterByte s e.code).move e).keyUp =
      bits (shiftAfter e.code s.shift) (capsAfter e.code s.caps) := move_keyUp _ e
  constructor
  · intro h
    obtain ⟨-, h1, h2, h3, h4, h5⟩ := h
    rw [hkey, hs.keyUp, bits_shift, bits_shift, bits_caps, bits_caps] at h3
    rw [hkey, bits_caps, hcaps] at h1
    rw [hkey, bits_shift, hshift] at h2
    rw [written_eq] at h4 h5
    exact ⟨h1, h2, h3, h4, h5⟩
  · intro h
    obtain ⟨h1, h2, h3, h4, h5⟩ := h
    refine ⟨?_, ?_, ?_, ?_, ?_, ?_⟩
    · intro _
      rw [irq_eq hs, afterByte_prefix hs]
    · rw [hkey, bits_caps, hcaps]
      exact h1
    · rw [hkey, bits_shift, hshift]
      exact h2
    · rw [hkey, hs.keyUp, bits_shift, bits_shift, bits_caps, bits_caps]
      exact h3
    · rw [written_eq]
      exact h4
    · rw [written_eq]
      exact h5

/-! ### Codes -/

theorem make_eq_shift : ∀ c : BitVec 7, (c.setWidth 8 : Byte) = 0x2A ↔ c = 0x2A := by decide

theorem make_eq_caps : ∀ c : BitVec 7, (c.setWidth 8 : Byte) = 0x3A ↔ c = 0x3A := by decide

theorem make_ne_unshift : ∀ c : BitVec 7, (c.setWidth 8 : Byte) ≠ 0xAA := by decide

theorem break_eq_unshift : ∀ c : BitVec 7, (c.setWidth 8 ||| 0x80 : Byte) = 0xAA ↔ c = 0x2A := by
  decide

theorem break_ge : ∀ c : BitVec 7, 128 ≤ (c.setWidth 8 ||| 0x80 : Byte).toNat := by decide

theorem keyText_of_ge (upper : Bool) {code : Byte} (h : 58 ≤ code.toNat) :
    keyText upper code = [] := by
  have hne : ∀ k : Byte, k.toNat < 58 → code ≠ k := by
    intro k hk heq
    rw [heq] at h
    omega
  rw [keyText, if_neg (hne _ (by decide)), if_neg (hne _ (by decide)), if_neg (hne _ (by decide)),
    if_neg (hne _ (by decide)), dif_neg (by omega)]

/-- A key with a character prints something. -/
theorem keyText_ne_nil {upper : Bool} {code c : Byte} (h : keyChar upper code = some c) :
    keyText upper code ≠ [] := by
  rw [keyChar] at h
  rw [keyText]
  by_cases h2A : code = 0x2A
  · rw [if_pos h2A] at h
    exact absurd h.symm (Option.some_ne_none c)
  rw [if_neg h2A] at h ⊢
  by_cases h0E : code = 0x0E
  · rw [if_pos h0E]
    exact List.cons_ne_nil _ _
  rw [if_neg h0E] at h ⊢
  by_cases h0F : code = 0x0F
  · rw [if_pos h0F]
    exact List.cons_ne_nil _ _
  rw [if_neg h0F] at h ⊢
  by_cases h1C : code = 0x1C
  · rw [if_pos h1C]
    exact List.cons_ne_nil _ _
  rw [if_neg h1C] at h ⊢
  by_cases hlt : code.toNat < 58
  · rw [dif_pos hlt]
    exact List.cons_ne_nil _ _
  · rw [dif_neg hlt] at h
    exact absurd h.symm (Option.some_ne_none c)

/-- A key without one prints nothing unless its map entry is output. -/
theorem keyText_eq_nil_iff {upper : Bool} {code : Byte} (h : keyChar upper code = none) :
    keyText upper code = [] ↔ ¬(code ≠ 0x2A ∧ code.toNat < 58) := by
  by_cases h2A : code = 0x2A
  · subst h2A
    exact iff_of_true rfl fun hbad => hbad.1 rfl
  by_cases hlt : code.toNat < 58
  · have hne : ∀ k : Byte, keyChar upper k ≠ none → code ≠ k := by
      intro k hk heq
      rw [heq] at h
      exact hk h
    rw [keyText, if_neg h2A, if_neg (hne 0x0E (Option.some_ne_none _)),
      if_neg (hne 0x0F (Option.some_ne_none _)), if_neg (hne 0x1C (Option.some_ne_none _)),
      dif_pos hlt]
    exact iff_of_false (List.cons_ne_nil _ _) fun hgood => hgood ⟨h2A, hlt⟩
  · exact iff_of_true (keyText_of_ge upper (Nat.le_of_not_lt hlt)) fun hbad => hlt hbad.2

/-! ### Following an event -/

theorem shiftAfter_make (k : Key) (shift : Bool) :
    shiftAfter k.make shift = if k.code = 0x2A then true else shift := by
  rw [shiftAfter, if_neg (show k.make ≠ 0xAA from make_ne_unshift k.code)]
  exact if_congr (make_eq_shift k.code) rfl rfl

theorem capsAfter_make (k : Key) (caps : Bool) :
    capsAfter k.make caps = if k.code = 0x3A then !caps else caps :=
  if_congr (make_eq_caps k.code) rfl rfl

theorem shiftAfter_break (k : Key) (shift : Bool) :
    shiftAfter (k.make ||| 0x80) shift = if k.code = 0x2A then false else shift := by
  have hne : k.make ||| 0x80 ≠ 0x2A := by
    intro heq
    have hge := break_ge k.code
    rw [show (k.code.setWidth 8 ||| 0x80 : Byte) = 0x2A from heq] at hge
    exact absurd hge (by decide)
  rw [shiftAfter, if_neg hne]
  exact if_congr (break_eq_unshift k.code) rfl rfl

theorem capsAfter_break (k : Key) (caps : Bool) : capsAfter (k.make ||| 0x80) caps = caps := by
  apply if_neg
  intro heq
  have hge := break_ge k.code
  rw [show (k.code.setWidth 8 ||| 0x80 : Byte) = 0x3A from heq] at hge
  exact absurd hge (by decide)

theorem eq_leftShift_iff (k : Key) : k = leftShift ↔ k.ext = false ∧ k.code = 0x2A := by
  obtain ⟨ext, code, hne⟩ := k
  simp [leftShift]

theorem eq_capsLock_iff (k : Key) : k = capsLock ↔ k.ext = false ∧ k.code = 0x3A := by
  obtain ⟨ext, code, hne⟩ := k
  simp [capsLock]

/-- What a make code prints is right when the first condition of `MakeDecodable` holds, and only
then. -/
theorem make_silent_iff (s : State) (k : Key) :
    (keyChar s.upper k.make = none → keyText s.upper k.make = []) ↔
      ¬(keyChar s.upper k.make = none ∧ k.code ≠ 0x2A ∧ k.code.toNat < 58) := by
  have hmake : k.make ≠ 0x2A ↔ k.code ≠ 0x2A := not_congr (make_eq_shift k.code)
  have hnat : k.make.toNat = k.code.toNat := by
    rw [Key.make, BitVec.toNat_setWidth]
    exact Nat.mod_eq_of_lt (Nat.lt_trans k.code.isLt (by decide))
  constructor
  · intro h hbad
    obtain ⟨hnone, h2A, hlt⟩ := hbad
    exact (keyText_eq_nil_iff hnone).mp (h hnone) ⟨hmake.mpr h2A, by rw [hnat]; exact hlt⟩
  · intro h hnone
    rw [keyText_eq_nil_iff hnone, hmake, hnat]
    exact fun hbad => h ⟨hnone, hbad⟩

theorem move_shift_press (s : State) (k : Key) :
    (s.move (.press k)).shift = if k = leftShift then true else s.shift := by
  show Function.update s.held k true leftShift = _
  by_cases h : k = leftShift
  · rw [if_pos h, h, Function.update_self]
  · rw [if_neg h, Function.update_of_ne (Ne.symm h)]
    rfl

theorem move_shift_release (s : State) (k : Key) :
    (s.move (.release k)).shift = if k = leftShift then false else s.shift := by
  show Function.update s.held k false leftShift = _
  by_cases h : k = leftShift
  · rw [if_pos h, h, Function.update_self]
  · rw [if_neg h, Function.update_of_ne (Ne.symm h)]
    rfl

theorem move_caps_press (s : State) (k : Key) :
    (s.move (.press k)).caps = if k = capsLock then !s.caps else s.caps := by
  show decide ((if k = capsLock then s.capsPresses + 1 else s.capsPresses) % 2 = 1) = _
  by_cases h : k = capsLock
  · rw [if_pos h, if_pos h, State.caps]
    rcases Nat.mod_two_eq_zero_or_one s.capsPresses with h0 | h1
    · simp [Nat.add_mod, h0]
    · simp [Nat.add_mod, h1]
  · rw [if_neg h, if_neg h]
    rfl

theorem ite_not_eq_self_iff (p : Prop) [Decidable p] (b : Bool) :
    (if p then !b else b) = b ↔ ¬p := by
  by_cases h : p <;> cases b <;> simp [h]

theorem ite_const_eq_self_iff (p : Prop) [Decidable p] (a b : Bool) :
    (if p then a else b) = b ↔ (p → b = a) := by
  by_cases h : p
  · rw [if_pos h]
    exact ⟨fun hab _ => hab.symm, fun hba => (hba h).symm⟩
  · rw [if_neg h]
    exact iff_of_true rfl fun hp => absurd hp h

/-- Taking a code for the left shift key is wrong only for the extended key of that code. -/
theorem shift_agrees_iff (k : Key) (a b : Bool) :
    (if k.code = 0x2A then a else b) = (if k = leftShift then a else b) ↔
      (k.ext = true → k.code = 0x2A → b = a) := by
  cases hext : k.ext with
  | false =>
    have hiff : k = leftShift ↔ k.code = 0x2A := by simp [eq_leftShift_iff, hext]
    exact iff_of_true (if_congr hiff rfl rfl).symm nofun
  | true =>
    have hne : k ≠ leftShift := by simp [eq_leftShift_iff, hext]
    rw [if_neg hne, ite_const_eq_self_iff]
    exact ⟨fun h _ => h, fun h => h rfl⟩

/-- Likewise for caps lock. -/
theorem caps_agrees_iff (k : Key) (b : Bool) :
    (if k.code = 0x3A then !b else b) = (if k = capsLock then !b else b) ↔
      (k.ext = true → k.code ≠ 0x3A) := by
  cases hext : k.ext with
  | false =>
    have hiff : k = capsLock ↔ k.code = 0x3A := by simp [eq_capsLock_iff, hext]
    exact iff_of_true (if_congr hiff rfl rfl).symm nofun
  | true =>
    have hne : k ≠ capsLock := by simp [eq_capsLock_iff, hext]
    rw [if_neg hne, ite_not_eq_self_iff]
    exact ⟨fun h _ => h, fun h => h rfl⟩

theorem follows_press_iff {s : State} (hs : Synced s) (k : Key) :
    Follows extended s (.press k) ((afterByte s k.make).move (.press k)) ↔
      MakeDecodable extended s k := by
  apply (follows_iff extended hs).trans
  show capsAfter k.make s.caps = _ ∧ shiftAfter k.make s.shift = _ ∧
    (k.ext = true → shiftAfter k.make s.shift = _ ∧ capsAfter k.make s.caps = _) ∧
    (k.ext = true → ∀ c, keyChar s.upper k.make = some c →
      keyText s.upper k.make = keyText s.upper k.make → extended s.upper k.code = some c) ∧
    (keyChar s.upper k.make = none → keyText s.upper k.make = []) ↔ _
  rw [make_silent_iff, capsAfter_make, shiftAfter_make, move_shift_press, move_caps_press,
    shift_agrees_iff, caps_agrees_iff, ite_const_eq_self_iff, ite_not_eq_self_iff]
  constructor
  · intro h
    obtain ⟨hcaps, hshift, -, hprints, hsilent⟩ := h
    refine ⟨hsilent, ?_⟩
    intro hext
    exact ⟨hcaps hext, hshift hext, fun c hc => hprints hext c hc rfl⟩
  · intro h
    obtain ⟨hsilent, hext⟩ := h
    exact ⟨fun he => (hext he).1, fun he => (hext he).2.1, fun he => ⟨(hext he).2.1, (hext he).1⟩,
      fun he c hc _ => (hext he).2.2 c hc, hsilent⟩

/-- A key that repeats is down. -/
theorem follows_hold_iff {s : State} (hs : Synced s) {k : Key} (hheld : s.held k = true) :
    Follows extended s (.hold k) ((afterByte s k.make).move (.hold k)) ↔
      MakeDecodable extended s k ∧ k ≠ capsLock := by
  apply (follows_iff extended hs).trans
  show capsAfter k.make s.caps = s.caps ∧ shiftAfter k.make s.shift = s.shift ∧
    (k.ext = true → shiftAfter k.make s.shift = _ ∧ capsAfter k.make s.caps = _) ∧
    (k.ext = true → ∀ c, keyChar s.upper k.make = some c →
      keyText s.upper k.make = keyText s.upper k.make → extended s.upper k.code = some c) ∧
    (keyChar s.upper k.make = none → keyText s.upper k.make = []) ↔ _
  rw [make_silent_iff, capsAfter_make, shiftAfter_make, ite_not_eq_self_iff, ite_const_eq_self_iff]
  constructor
  · intro h
    obtain ⟨hcaps, hshift, -, hprints, hsilent⟩ := h
    refine ⟨⟨hsilent, ?_⟩, ?_⟩
    · intro hext
      exact ⟨hcaps, hshift, fun c hc => hprints hext c hc rfl⟩
    · rw [Ne, eq_capsLock_iff]
      exact fun hk => hcaps hk.2
  · intro h
    obtain ⟨⟨hsilent, hext⟩, hlock⟩ := h
    have hcaps : k.code ≠ 0x3A := by
      intro hcode
      cases he : k.ext with
      | false => exact hlock ((eq_capsLock_iff k).mpr ⟨he, hcode⟩)
      | true => exact (hext he).1 hcode
    have hshift : k.code = 0x2A → s.shift = true := by
      intro hcode
      cases he : k.ext with
      | false =>
        -- the held key is the left shift key itself
        have hk : k = leftShift := (eq_leftShift_iff k).mpr ⟨he, hcode⟩
        rw [hk] at hheld
        exact hheld
      | true => exact (hext he).2.1 hcode
    exact ⟨hcaps, hshift, fun _ => ⟨hshift, hcaps⟩, fun he c hc _ => (hext he).2.2 c hc, hsilent⟩

theorem follows_release_iff {s : State} (hs : Synced s) (k : Key) :
    Follows extended s (.release k) ((afterByte s (k.make ||| 0x80)).move (.release k)) ↔
      (k.ext = true → k.code = 0x2A → s.shift = false) := by
  have htext : keyText s.upper (k.make ||| 0x80) = [] :=
    keyText_of_ge s.upper (Nat.le_trans (by decide) (break_ge k.code))
  apply (follows_iff extended hs).trans
  show capsAfter (k.make ||| 0x80) s.caps = s.caps ∧ shiftAfter (k.make ||| 0x80) s.shift = _ ∧
    (k.ext = true → shiftAfter (k.make ||| 0x80) s.shift = _ ∧
      capsAfter (k.make ||| 0x80) s.caps = _) ∧
    (k.ext = true → ∀ c, keyChar s.upper k.make = some c →
      keyText s.upper (k.make ||| 0x80) = keyText s.upper k.make →
        extended s.upper k.code = some c) ∧
    (keyChar s.upper k.make = none → keyText s.upper (k.make ||| 0x80) = []) ↔ _
  rw [capsAfter_break, shiftAfter_break, move_shift_release, shift_agrees_iff,
    ite_const_eq_self_iff, htext]
  constructor
  · intro h
    exact h.2.1
  · intro h
    exact ⟨rfl, h, fun he => ⟨h he, rfl⟩,
      fun _ c hc heq => absurd heq.symm (keyText_ne_nil hc), fun _ => rfl⟩

/-- **One event.** From a synced state, the decoder follows exactly the decodable events. -/
theorem follows_iff_decodable {s s' : State} {e : KeyEvent} (hs : Synced s)
    (hstep : step s e = some s') : Follows extended s e s' ↔ Decodable extended s e s' := by
  obtain ⟨hpos, rfl⟩ := step_eq hs hstep
  cases e with
  | press k => exact follows_press_iff extended hs k
  | hold k => exact follows_hold_iff extended hs hpos
  | release k => exact follows_release_iff extended hs k

theorem synced_step {s s' : State} {e : KeyEvent} (hs : Synced s) (hstep : step s e = some s')
    (hfollows : Follows extended s e s') : Synced s' := by
  obtain ⟨-, rfl⟩ := step_eq hs hstep
  obtain ⟨hcaps, hshift, -, -, -⟩ := (follows_iff extended hs).mp hfollows
  refine ⟨?_, ?_, ?_⟩
  · rw [move_keyUp]
    show bits _ _ = bits _ _
    rw [hcaps, hshift]
    cases e <;> rfl
  · rw [move_console]
    exact hs.serial
  · rw [move_console]
    exact hs.halted

/-- **Decoding.** Whatever is typed, from all keys up: the decoder follows the keys through every
event if and only if every event is one it takes right. -/
theorem typing_follows_iff (s : State) (hs : Fresh s) (es : List KeyEvent) :
    keyboard.Along (Follows extended) s es ↔ keyboard.Along (Decodable extended) s es := by
  apply Machine.along_iff _ _ (synced_fresh hs)
  · intro s e s' hsync hstep hdec
    exact synced_step extended hsync hstep ((follows_iff_decodable extended hsync hstep).mpr hdec)
  · intro s e s' hsync hstep
    exact follows_iff_decodable extended hsync hstep

end Decoding

/-! ### Two streams -/

def start : State := ⟨fun _ => false, 0, 0, ⟨0x1000, false, false, []⟩⟩

theorem fresh_start : Fresh start := ⟨rfl, rfl, rfl, rfl, rfl⟩

/-- `q` and `Q` in the two maps. -/
def keyQ : Key := ⟨false, 0x1E, by decide⟩

/-- It is pressed, repeats twice and is released. -/
theorem typing_follows_iff_keyQ :
    keyboard.Along (Follows fun _ _ => none) start
      [.press keyQ, .hold keyQ, .hold keyQ, .release keyQ] := by
  have hmake : ∀ s, MakeDecodable (fun _ _ => none) s keyQ := by
    intro s
    refine ⟨?_, nofun⟩
    intro hbad
    have hnone := hbad.1
    revert hnone
    cases s.upper <;> decide
  rw [typing_follows_iff (fun _ _ => none) start fresh_start]
  intro s₁ _
  refine ⟨hmake _, ?_⟩
  intro s₂ _
  refine ⟨⟨hmake _, by decide⟩, ?_⟩
  intro s₃ _
  refine ⟨⟨hmake _, by decide⟩, ?_⟩
  intro s₄ _
  exact ⟨nofun, trivial⟩

/-- Caps lock is pressed once and repeats once: the decoder clears the bit again. -/
theorem capsLock_held_not_followed :
    ¬keyboard.Along (Follows fun _ _ => none) start [.press capsLock, .hold capsLock] := by
  have hsync := synced_fresh fresh_start
  have hpress := step_of_possible hsync (e := .press capsLock) rfl
  intro h
  obtain ⟨hfollows, hrest⟩ := h _ hpress
  have hsync' := synced_step _ hsync hpress hfollows
  have hheld : KeyEvent.possible
      ((afterByte start capsLock.make).move (.press capsLock)).held (.hold capsLock) = true := by
    show Function.update start.held capsLock true capsLock = true
    rw [Function.update_self]
  have hhold := step_of_possible hsync' hheld
  have hdec := (follows_iff_decodable _ hsync' hhold).mp (hrest _ hhold).1
  exact hdec.2 rfl

end MegaOS.Keyboard
