import Mathlib.Data.BitVec
import Mathlib.Data.List.FinRange

/-!
# Two cascaded 8259 interrupt controllers

One chip as a state machine on its two registers: the command port takes ICW1
and the end-of-interrupt command, the data port takes the initialization words
the chip is still waiting for and the interrupt mask otherwise. Interrupts are
acknowledged and retired in the in-service register, in fixed priority: input 0
is the highest, and a non-specific end of interrupt retires the highest
in-service input.

The pair is wired the usual way, with the second chip on input 2 of the first.
-/

namespace MegaOS.Pic8259

/-- The initialization word the next data write is taken for. -/
inductive Pending
  | ready
  | icw2
  | icw3
  | icw4
  deriving DecidableEq, Repr

structure Chip where
  imr : BitVec 8
  isr : BitVec 8
  icw1 : BitVec 8
  icw2 : BitVec 8
  icw3 : BitVec 8
  icw4 : BitVec 8
  pending : Pending
  deriving DecidableEq, Repr

/-- The highest-priority input in service. -/
def highest (isr : BitVec 8) : Option (Fin 8) :=
  (List.finRange 8).find? fun i => isr.getLsbD i

/-- Non-specific end of interrupt. -/
def retire (isr : BitVec 8) : BitVec 8 :=
  match highest isr with
  | some i => isr &&& ~~~BitVec.twoPow 8 i
  | none => isr

/-- A write to the command port: bit 4 marks ICW1, `001` in the top bits of an operation command
word a non-specific end of interrupt. Other commands do not touch the modelled registers. -/
def Chip.writeCommand (c : Chip) (v : BitVec 8) : Chip :=
  if v.getLsbD 4 then { c with imr := 0, icw1 := v, pending := .icw2 }
  else if v = 0x20 then { c with isr := retire c.isr }
  else c

/-- After ICW1 to ICW3: ICW4 follows if ICW1 announced it. -/
def Chip.afterIcw3 (c : Chip) : Pending := if c.icw1.getLsbD 0 then .icw4 else .ready

/-- A write to the data port. ICW3 is skipped by a single chip, bit 1 of ICW1. -/
def Chip.writeData (c : Chip) (v : BitVec 8) : Chip :=
  match c.pending with
  | .icw2 => { c with icw2 := v, pending := if c.icw1.getLsbD 1 then c.afterIcw3 else .icw3 }
  | .icw3 => { c with icw3 := v, pending := c.afterIcw3 }
  | .icw4 => { c with icw4 := v, pending := .ready }
  | .ready => { c with imr := v }

/-- A read of the data port. -/
def Chip.readData (c : Chip) : BitVec 8 := c.imr

/-- The chip is not waiting for an initialization word. -/
def Chip.Operational (c : Chip) : Prop := c.pending = .ready

structure Pair where
  master : Chip
  slave : Chip
  deriving DecidableEq, Repr

def Pair.Operational (p : Pair) : Prop := p.master.Operational ∧ p.slave.Operational

/-- The ports of the two chips; other ports belong to other devices. -/
def Pair.outb (p : Pair) (port : BitVec 16) (v : BitVec 8) : Pair :=
  if port = 0x20 then { p with master := p.master.writeCommand v }
  else if port = 0x21 then { p with master := p.master.writeData v }
  else if port = 0xA0 then { p with slave := p.slave.writeCommand v }
  else if port = 0xA1 then { p with slave := p.slave.writeData v }
  else p

def Pair.inb (p : Pair) (port : BitVec 16) : BitVec 8 :=
  if port = 0x21 then p.master.readData
  else if port = 0xA1 then p.slave.readData
  else 0xFF

/-- The sixteen mask bits, line 0 first. -/
def Pair.mask (p : Pair) : BitVec 16 := p.slave.imr ++ p.master.imr

/-- The vector a line is delivered on: the base without its low three bits, and the input. -/
def Pair.vectorOf (p : Pair) (k : Fin 16) : BitVec 8 :=
  if k.val < 8 then (p.master.icw2 &&& 0xF8) ||| BitVec.ofNat 8 k
  else (p.slave.icw2 &&& 0xF8) ||| BitVec.ofNat 8 (k - 8)

/-! ### Acknowledge and retire -/

/-- The input of the first chip that a line arrives on. -/
def masterInput (k : Fin 16) : ℕ := if k.val < 8 then k.val else 2

/-- The in-service bits an acknowledge sets, on the first and the second chip. -/
def masterBits (k : Fin 16) : BitVec 8 := BitVec.twoPow 8 (masterInput k)
def slaveBits (k : Fin 16) : BitVec 8 := if k.val < 8 then 0 else BitVec.twoPow 8 (k.val - 8)

/-- A request is passed on when no input of the same or a higher priority is in service, on either
chip it goes through. -/
def Pair.Accepts (p : Pair) (k : Fin 16) : Prop :=
  (∀ j, j ≤ masterInput k → p.master.isr.getLsbD j = false) ∧
    (8 ≤ k.val → ∀ j, j ≤ k.val - 8 → p.slave.isr.getLsbD j = false)

instance (p : Pair) (k : Fin 16) : Decidable (p.Accepts k) :=
  decidable_of_iff
    ((∀ j, j < masterInput k + 1 → p.master.isr.getLsbD j = false) ∧
      (8 ≤ k.val → ∀ j, j < k.val - 8 + 1 → p.slave.isr.getLsbD j = false))
    (by simp only [Pair.Accepts, Nat.lt_succ_iff])

def Pair.acknowledge (p : Pair) (k : Fin 16) : Pair where
  master := { p.master with isr := p.master.isr ||| masterBits k }
  slave := { p.slave with isr := p.slave.isr ||| slaveBits k }

/-- The first in-service input is the highest. -/
theorem highest_eq_some {isr : BitVec 8} {i : ℕ} (hi : i < 8) (hset : isr.getLsbD i = true)
    (hlow : ∀ j, j < i → isr.getLsbD j = false) : highest isr = some ⟨i, hi⟩ := by
  rw [highest, List.find?_eq_some_iff_getElem]
  refine ⟨hset, i, by simpa using hi, by simp, ?_⟩
  intro j hj
  simpa using hlow j hj

/-- **Retire.** When input `i` is the first in service, exactly its bit is cleared. -/
theorem retire_eq {isr : BitVec 8} {i : ℕ} (hi : i < 8) (hset : isr.getLsbD i = true)
    (hlow : ∀ j, j < i → isr.getLsbD j = false) : retire isr = isr &&& ~~~BitVec.twoPow 8 i := by
  rw [retire, highest_eq_some hi hset hlow]

theorem masterInput_lt (k : Fin 16) : masterInput k < 8 := by
  unfold masterInput
  split <;> omega

theorem getLsbD_masterBits (k : Fin 16) (j : ℕ) :
    (masterBits k).getLsbD j = decide (j = masterInput k) := by
  simp only [masterBits, BitVec.getLsbD_twoPow, masterInput_lt, decide_true, Bool.true_and, eq_comm]

theorem getLsbD_slaveBits (k : Fin 16) (j : ℕ) :
    (slaveBits k).getLsbD j = decide (8 ≤ k.val ∧ j = k.val - 8) := by
  unfold slaveBits
  split
  · rename_i h
    simp [show ¬8 ≤ k.val by omega]
  · rename_i h
    simp [BitVec.getLsbD_twoPow, show 8 ≤ k.val by omega, show k.val - 8 < 8 by omega, eq_comm]

theorem getLsbD_and_not (x y : BitVec 8) (j : ℕ) :
    (x &&& ~~~y).getLsbD j = (x.getLsbD j && !y.getLsbD j) := by
  rw [BitVec.getLsbD_and, BitVec.getLsbD_not]
  by_cases hj : j < 8
  · simp [hj]
  · simp [BitVec.getLsbD_of_ge x j (Nat.le_of_not_lt hj)]

end MegaOS.Pic8259
