import Mathlib.Data.BitVec
import Mathlib.Data.List.Basic

/-!
# A 16550 serial controller

The transmitter and the registers that decide where a byte written to it goes:
to the divisor while the latch bit is set, back to the receiver in loopback, and
to the transmit FIFO otherwise. A byte written to a full FIFO is lost. The line
takes the bytes out at the other end, one at a time and at moments of its own.
-/

namespace MegaOS.Uart16550

structure Uart where
  inte : BitVec 8
  divl : BitVec 8
  divh : BitVec 8
  fcr : BitVec 8
  lcr : BitVec 8
  mcr : BitVec 8
  received : List (BitVec 8)
  fifo : List (BitVec 8)
  /-- The bytes that have left on the line. -/
  line : List (BitVec 8)
  deriving DecidableEq

/-- The divisor latch, bit 7 of the line control register. -/
def Uart.dlab (u : Uart) : Bool := u.lcr.getLsbD 7

/-- Bit 4 of the modem control register. -/
def Uart.loopback (u : Uart) : Bool := u.mcr.getLsbD 4

/-- Sixteen bytes when the FIFOs are enabled, bit 0 of their control register; else one. -/
def Uart.capacity (u : Uart) : ℕ := if u.fcr.getLsbD 0 then 16 else 1

/-- A byte for the transmitter. -/
def Uart.transmit (u : Uart) (v : BitVec 8) : Uart :=
  if u.loopback then { u with received := u.received ++ [v] }
  else if u.fifo.length < u.capacity then { u with fifo := u.fifo ++ [v] }
  else u

/-- A write to the FIFO control register: bits 1 and 2 clear the receive and the transmit FIFO. -/
def Uart.control (u : Uart) (v : BitVec 8) : Uart :=
  { u with
    fcr := v
    received := if v.getLsbD 1 then [] else u.received
    fifo := if v.getLsbD 2 then [] else u.fifo }

/-- A write to the register at an offset from the first port. -/
def Uart.outb (u : Uart) (offset : BitVec 16) (v : BitVec 8) : Uart :=
  if offset = 0 then if u.dlab then { u with divl := v } else u.transmit v
  else if offset = 1 then if u.dlab then { u with divh := v } else { u with inte := v }
  else if offset = 2 then u.control v
  else if offset = 3 then { u with lcr := v }
  else if offset = 4 then { u with mcr := v }
  else u

/-- A read of the data register takes the oldest received byte. -/
def Uart.readData (u : Uart) : BitVec 8 × Uart :=
  (u.received.headD 0, { u with received := u.received.tail })

/-- The line status register. Bit 5 says that the transmit FIFO is empty; `other` holds the bits
that depend on the receiver and the line. -/
def Uart.lineStatus (u : Uart) (other : BitVec 8) : BitVec 8 :=
  if u.fifo = [] then other ||| 0x20 else other &&& ~~~0x20

/-- The oldest byte of the FIFO leaves. -/
def Uart.drain (u : Uart) : Option Uart :=
  match u.fifo with
  | [] => none
  | c :: fifo => some { u with fifo := fifo, line := u.line ++ [c] }

/-- Ready to transmit: the data register is the transmitter, which has its FIFO and the line. -/
structure Uart.Configured (u : Uart) : Prop where
  dlab : u.dlab = false
  loopback : u.loopback = false
  capacity : u.capacity = 16

theorem lineStatus_bit (u : Uart) (other : BitVec 8) :
    u.lineStatus other &&& 0x20 ≠ 0 ↔ u.fifo = [] := by
  have hbit : (u.lineStatus other &&& 0x20 : BitVec 8) =
      if u.fifo = [] then 0x20 else 0 := by
    rw [Uart.lineStatus]
    split
    · rw [BitVec.and_or_distrib_right, BitVec.and_self]
      apply BitVec.eq_of_getLsbD_eq
      intro i hi
      rw [BitVec.getLsbD_or, BitVec.getLsbD_and]
      cases (0x20 : BitVec 8).getLsbD i <;> simp
    · rw [BitVec.and_assoc, show (~~~0x20 &&& 0x20 : BitVec 8) = 0 from rfl]
      exact BitVec.and_zero
  rw [hbit]
  by_cases hempty : u.fifo = []
  · rw [if_pos hempty]
    exact iff_of_true (by decide) hempty
  · rw [if_neg hempty]
    exact iff_of_false (by decide) hempty

/-- A byte written with room in the FIFO is appended to it. -/
theorem Uart.Configured.outb_data {u : Uart} (h : u.Configured) (v : BitVec 8)
    (hroom : u.fifo.length < 16) : u.outb 0 v = { u with fifo := u.fifo ++ [v] } := by
  have hcap : u.fifo.length < u.capacity := by
    rw [h.capacity]
    exact hroom
  rw [Uart.outb, if_pos rfl, h.dlab, if_neg Bool.false_ne_true, Uart.transmit, h.loopback,
    if_neg Bool.false_ne_true, if_pos hcap]

/-- The bytes keep their order on the way out. -/
theorem drain_eq_some {u u' : Uart} (h : u.drain = some u') :
    u'.line ++ u'.fifo = u.line ++ u.fifo ∧ u'.fifo.length ≤ u.fifo.length ∧
      (u.Configured → u'.Configured) := by
  rw [Uart.drain] at h
  split at h
  · exact absurd h.symm (Option.some_ne_none _)
  · rename_i c fifo hfifo
    obtain rfl := Option.some.inj h
    refine ⟨?_, ?_, fun hc => ⟨hc.dlab, hc.loopback, hc.capacity⟩⟩
    · rw [hfifo, List.append_assoc]
      rfl
    · rw [hfifo]
      exact Nat.le_succ _

end MegaOS.Uart16550
