import MegaOS.Foundation.Pic8259
import Mathlib.Tactic.IntervalCases

/-!
# Programming the interrupt controllers

`interrupts::pic` as port programs on the pair of chips, and the sixteen-bit mask
they implement. Each driver call, from a state in which both chips are
operational, leaves them operational and acts on the mask, the vector bases and
the cascade wiring as the abstract call does; the abstract state of a run is
then the fold of its calls.
-/

namespace MegaOS.Pic

open MegaOS.Pic8259

/-- `pic::ports`. -/
def mpicCommand : BitVec 16 := 0x20
def spicCommand : BitVec 16 := 0xA0
def mpicData : BitVec 16 := 0x21
def spicData : BitVec 16 := 0xA1

/-- `pic::commands`. -/
def cmdInit : BitVec 8 := 0x10
def cmdIcw4 : BitVec 8 := 0x01
def cmdEoi : BitVec 8 := 0x20

/-- `cpu::io::wait`, a write to an unused port. -/
def wait (p : Pair) : Pair := p.outb 0x80 0

/-- `pic::disable`. -/
def disable (p : Pair) : Pair := (p.outb mpicData 0xFF).outb spicData 0xFF

/-- The data port and the bit of an IRQ number. -/
def dataPort (irq : BitVec 8) : BitVec 16 := if 8 ≤ irq.toNat then spicData else mpicData
def portBit (irq : BitVec 8) : BitVec 8 := if 8 ≤ irq.toNat then irq - 8 else irq

/-- `1 << irq`, an `int`. -/
def bitOf (irq : BitVec 8) : BitVec 32 := 1#32 <<< (portBit irq).toNat

/-- `pic::set_irq_mask`; the result of the `int` arithmetic is narrowed to a byte. -/
def setIrqMask (irq : BitVec 8) (p : Pair) : Pair :=
  p.outb (dataPort irq) (((p.inb (dataPort irq)).setWidth 32 ||| bitOf irq).setWidth 8)

/-- `pic::clear_irq_mask`. -/
def clearIrqMask (irq : BitVec 8) (p : Pair) : Pair :=
  p.outb (dataPort irq) (((p.inb (dataPort irq)).setWidth 32 &&& ~~~bitOf irq).setWidth 8)

/-- `pic::remap_pic`: save the mask, initialize, restore the mask. -/
def remapPic (commandPort dataPort : BitVec 16) (picOffset : BitVec 8) (p : Pair) : Pair :=
  let imr := p.inb dataPort
  let icw3 : BitVec 8 := if commandPort = mpicCommand then 0x4 else 0x2
  let p := wait (p.outb commandPort (cmdInit ||| cmdIcw4))
  let p := wait (p.outb dataPort picOffset)
  let p := wait (p.outb dataPort icw3)
  let p := wait (p.outb dataPort 0x1)
  p.outb dataPort imr

/-- `pic::remap`, without its log message. -/
def remap (mpicOffset spicOffset : BitVec 8) (p : Pair) : Pair :=
  remapPic spicCommand spicData spicOffset (remapPic mpicCommand mpicData mpicOffset p)

/-- The writes of `pic::send_eoi`. -/
def sendEoi (irqNo : BitVec 8) : List (BitVec 16 × BitVec 8) :=
  (if 8 ≤ irqNo.toNat then [(spicCommand, cmdEoi)] else []) ++ [(mpicCommand, cmdEoi)]

/-- A list of port writes, in order. -/
def writes (ws : List (BitVec 16 × BitVec 8)) (p : Pair) : Pair :=
  ws.foldl (fun p w => p.outb w.1 w.2) p

/-! ### Driver calls and their abstract meaning -/

inductive Call
  | remap (mpicOffset spicOffset : BitVec 8)
  | setIrqMask (irq : BitVec 8)
  | clearIrqMask (irq : BitVec 8)
  | disable
  deriving DecidableEq, Repr

/-- The IRQ numbers the controllers have. -/
def Call.Valid : Call → Prop
  | .setIrqMask irq => irq.toNat < 16
  | .clearIrqMask irq => irq.toNat < 16
  | _ => True

instance : DecidablePred Call.Valid := fun c => by
  cases c <;> unfold Call.Valid <;> infer_instance

def Call.exec : Call → Pair → Pair
  | .remap m s, p => Pic.remap m s p
  | .setIrqMask irq, p => Pic.setIrqMask irq p
  | .clearIrqMask irq, p => Pic.clearIrqMask irq p
  | .disable, p => Pic.disable p

/-- What the driver is for: sixteen mask bits, and where each chip's vectors start and how it is
cascaded. -/
structure Abstract where
  mask : BitVec 16
  masterBase : BitVec 8
  slaveBase : BitVec 8
  masterWiring : BitVec 8
  slaveWiring : BitVec 8
  deriving DecidableEq, Repr

def Call.spec : Call → Abstract → Abstract
  | .remap m s, a =>
      { a with masterBase := m, slaveBase := s, masterWiring := 0x4, slaveWiring := 0x2 }
  | .setIrqMask irq, a => { a with mask := a.mask ||| BitVec.twoPow 16 irq.toNat }
  | .clearIrqMask irq, a => { a with mask := a.mask &&& ~~~BitVec.twoPow 16 irq.toNat }
  | .disable, a => { a with mask := BitVec.allOnes 16 }

/-- The abstract state of a pair of chips. -/
def abstractOf (p : Pair) : Abstract where
  mask := p.mask
  masterBase := p.master.icw2
  slaveBase := p.slave.icw2
  masterWiring := p.master.icw3
  slaveWiring := p.slave.icw3

/-! ### Port lemmas -/

@[simp] theorem outb_mpicCommand (p : Pair) (v : BitVec 8) :
    p.outb mpicCommand v = { p with master := p.master.writeCommand v } := rfl

@[simp] theorem outb_mpicData (p : Pair) (v : BitVec 8) :
    p.outb mpicData v = { p with master := p.master.writeData v } := rfl

@[simp] theorem outb_spicCommand (p : Pair) (v : BitVec 8) :
    p.outb spicCommand v = { p with slave := p.slave.writeCommand v } := rfl

@[simp] theorem outb_spicData (p : Pair) (v : BitVec 8) :
    p.outb spicData v = { p with slave := p.slave.writeData v } := rfl

@[simp] theorem wait_eq (p : Pair) : wait p = p := rfl

/-- A data write to an operational chip is its mask. -/
theorem writeData_ready {c : Chip} (h : c.Operational) (v : BitVec 8) :
    c.writeData v = { c with imr := v } := by
  rw [Chip.writeData, h]

@[simp] theorem inb_mpicData (p : Pair) : p.inb mpicData = p.master.imr := rfl

@[simp] theorem inb_spicData (p : Pair) : p.inb spicData = p.slave.imr := rfl

/-- A chip programmed by `remap_pic`. -/
def programmed (c : Chip) (offset icw3 : BitVec 8) : Chip :=
  { c with icw1 := 0x11, icw2 := offset, icw3 := icw3, icw4 := 0x1, pending := .ready }

/-- **Programming.** ICW1 wipes the mask and starts the sequence; ICW2 to ICW4 end it, so the last
of the five writes is the mask again. -/
theorem remapChip (c : Chip) (offset icw3 : BitVec 8) :
    ((((c.writeCommand (cmdInit ||| cmdIcw4)).writeData offset).writeData icw3).writeData
      0x1).writeData c.imr = programmed c offset icw3 := by
  have hinit : (cmdInit ||| cmdIcw4).getLsbD 4 = true := by decide
  have hcascade : (cmdInit ||| cmdIcw4).getLsbD 1 = false := by decide
  have hicw4 : (cmdInit ||| cmdIcw4).getLsbD 0 = true := by decide
  simp only [Chip.writeCommand, hinit, if_true, Chip.writeData, Chip.afterIcw3, hcascade,
    Bool.false_eq_true, if_false, hicw4, programmed]
  rfl

theorem remapPic_master (offset : BitVec 8) (p : Pair) :
    remapPic mpicCommand mpicData offset p = { p with master := programmed p.master offset 0x4 } := by
  simp only [remapPic, inb_mpicData, if_true, outb_mpicCommand, outb_mpicData, wait_eq, remapChip]

theorem remapPic_slave (offset : BitVec 8) (p : Pair) :
    remapPic spicCommand spicData offset p = { p with slave := programmed p.slave offset 0x2 } := by
  have hne : ¬spicCommand = mpicCommand := by decide
  simp only [remapPic, inb_spicData, if_neg hne, outb_spicCommand, outb_spicData, wait_eq,
    remapChip]

/-! ### Masks -/

/-- A byte updated by `int` arithmetic with one bit is updated in that bit. -/
theorem byte_or_bit (m : BitVec 8) (i : ℕ) :
    (m.setWidth 32 ||| 1#32 <<< i).setWidth 8 = m ||| BitVec.twoPow 8 i := by
  apply BitVec.eq_of_getLsbD_eq
  intro j hj
  simp only [BitVec.getLsbD_setWidth, BitVec.getLsbD_or, ← BitVec.twoPow_eq, BitVec.getLsbD_twoPow]
  by_cases hij : i = j
  · subst hij
    simp [hj, show i < 32 by omega]
  · simp [hij, hj, show j < 32 by omega]

theorem byte_and_not_bit (m : BitVec 8) (i : ℕ) :
    (m.setWidth 32 &&& ~~~(1#32 <<< i)).setWidth 8 = m &&& ~~~BitVec.twoPow 8 i := by
  apply BitVec.eq_of_getLsbD_eq
  intro j hj
  simp only [BitVec.getLsbD_setWidth, BitVec.getLsbD_and, BitVec.getLsbD_not, ← BitVec.twoPow_eq,
    BitVec.getLsbD_twoPow]
  by_cases hij : i = j
  · subst hij
    simp [hj, show i < 32 by omega]
  · simp [hij, hj, show j < 32 by omega]

/-- A line below 8 has its mask bit in the first byte, the others in the second. -/
theorem twoPow_low (i : ℕ) (hi : i < 8) :
    BitVec.twoPow 16 i = (0#8 ++ BitVec.twoPow 8 i : BitVec 16) := by
  interval_cases i <;> decide

theorem twoPow_high (i : ℕ) (hlo : 8 ≤ i) (hhi : i < 16) :
    BitVec.twoPow 16 i = (BitVec.twoPow 8 (i - 8) ++ 0#8 : BitVec 16) := by
  interval_cases i <;> decide

theorem mask_or_low (s m : BitVec 8) (i : ℕ) (hi : i < 8) :
    (s ++ (m ||| BitVec.twoPow 8 i) : BitVec 16) = (s ++ m) ||| BitVec.twoPow 16 i := by
  rw [twoPow_low i hi]
  show _ = ((s ++ m : BitVec (8 + 8)) ||| (0#8 ++ BitVec.twoPow 8 i) : BitVec (8 + 8))
  rw [BitVec.or_append, BitVec.or_zero]

theorem mask_or_high (s m : BitVec 8) (i : ℕ) (hlo : 8 ≤ i) (hhi : i < 16) :
    ((s ||| BitVec.twoPow 8 (i - 8)) ++ m : BitVec 16) = (s ++ m) ||| BitVec.twoPow 16 i := by
  rw [twoPow_high i hlo hhi]
  show _ = ((s ++ m : BitVec (8 + 8)) ||| (BitVec.twoPow 8 (i - 8) ++ 0#8) : BitVec (8 + 8))
  rw [BitVec.or_append, BitVec.or_zero]

theorem mask_and_not_low (s m : BitVec 8) (i : ℕ) (hi : i < 8) :
    (s ++ (m &&& ~~~BitVec.twoPow 8 i) : BitVec 16) = (s ++ m) &&& ~~~BitVec.twoPow 16 i := by
  rw [twoPow_low i hi]
  show _ = ((s ++ m : BitVec (8 + 8)) &&& ~~~(0#8 ++ BitVec.twoPow 8 i) : BitVec (8 + 8))
  rw [BitVec.not_append, BitVec.and_append, BitVec.not_zero, BitVec.and_allOnes]

theorem mask_and_not_high (s m : BitVec 8) (i : ℕ) (hlo : 8 ≤ i) (hhi : i < 16) :
    ((s &&& ~~~BitVec.twoPow 8 (i - 8)) ++ m : BitVec 16) = (s ++ m) &&& ~~~BitVec.twoPow 16 i := by
  rw [twoPow_high i hlo hhi]
  show _ = ((s ++ m : BitVec (8 + 8)) &&& ~~~(BitVec.twoPow 8 (i - 8) ++ 0#8) : BitVec (8 + 8))
  rw [BitVec.not_append, BitVec.and_append, BitVec.not_zero, BitVec.and_allOnes]

theorem sub_eight_toNat {irq : BitVec 8} (h : 8 ≤ irq.toNat) : (irq - 8).toNat = irq.toNat - 8 := by
  have hlt := irq.isLt
  rw [BitVec.toNat_sub, show (8 : BitVec 8).toNat = 8 from rfl]
  omega

/-- **Mask updates.** Setting and clearing a mask bit change exactly that bit of the pair's mask. -/
theorem setIrqMask_eq (irq : BitVec 8) (hirq : irq.toNat < 16) (p : Pair) (hp : p.Operational) :
    (setIrqMask irq p).Operational ∧ abstractOf (setIrqMask irq p) =
      { abstractOf p with mask := p.mask ||| BitVec.twoPow 16 irq.toNat } := by
  by_cases h : 8 ≤ irq.toNat
  · simp only [setIrqMask, dataPort, portBit, bitOf, if_pos h, inb_spicData, outb_spicData,
      byte_or_bit, writeData_ready hp.2, sub_eight_toNat h, abstractOf, Pair.mask,
      mask_or_high _ _ _ h hirq]
    exact ⟨hp, trivial⟩
  · simp only [setIrqMask, dataPort, portBit, bitOf, if_neg h, inb_mpicData, outb_mpicData,
      byte_or_bit, writeData_ready hp.1, abstractOf, Pair.mask,
      mask_or_low _ _ _ (Nat.lt_of_not_le h)]
    exact ⟨hp, trivial⟩

theorem clearIrqMask_eq (irq : BitVec 8) (hirq : irq.toNat < 16) (p : Pair) (hp : p.Operational) :
    (clearIrqMask irq p).Operational ∧ abstractOf (clearIrqMask irq p) =
      { abstractOf p with mask := p.mask &&& ~~~BitVec.twoPow 16 irq.toNat } := by
  by_cases h : 8 ≤ irq.toNat
  · simp only [clearIrqMask, dataPort, portBit, bitOf, if_pos h, inb_spicData, outb_spicData,
      byte_and_not_bit, writeData_ready hp.2, sub_eight_toNat h, abstractOf, Pair.mask,
      mask_and_not_high _ _ _ h hirq]
    exact ⟨hp, trivial⟩
  · simp only [clearIrqMask, dataPort, portBit, bitOf, if_neg h, inb_mpicData, outb_mpicData,
      byte_and_not_bit, writeData_ready hp.1, abstractOf, Pair.mask,
      mask_and_not_low _ _ _ (Nat.lt_of_not_le h)]
    exact ⟨hp, trivial⟩

/-! ### Refinement -/

/-- **One call.** From operational chips, a valid call leaves the chips operational and acts on the
abstract state as its specification does. -/
theorem exec_refines (c : Call) (hc : c.Valid) (p : Pair) (hp : p.Operational) :
    (c.exec p).Operational ∧ abstractOf (c.exec p) = c.spec (abstractOf p) := by
  cases c with
  | remap m s =>
    simp only [Call.exec, remap, remapPic_master, remapPic_slave]
    exact ⟨⟨rfl, rfl⟩, rfl⟩
  | disable =>
    have hall : (255#8 ++ 255#8 : BitVec 16) = BitVec.allOnes 16 := by decide
    simp only [Call.exec, disable, outb_mpicData, outb_spicData, writeData_ready hp.1,
      writeData_ready hp.2, abstractOf, Pair.mask, Call.spec]
    exact ⟨hp, by rw [← hall]; rfl⟩
  | setIrqMask irq => exact setIrqMask_eq irq hc p hp
  | clearIrqMask irq => exact clearIrqMask_eq irq hc p hp

/-- No driver call touches the in-service registers. -/
theorem writeData_isr (c : Chip) (v : BitVec 8) : (c.writeData v).isr = c.isr := by
  unfold Chip.writeData
  split <;> rfl

theorem outb_dataPort_isr (irq v : BitVec 8) (p : Pair) :
    (p.outb (dataPort irq) v).master.isr = p.master.isr ∧
      (p.outb (dataPort irq) v).slave.isr = p.slave.isr := by
  by_cases h : 8 ≤ irq.toNat
  · simp only [dataPort, if_pos h, outb_spicData, writeData_isr]
    exact ⟨trivial, trivial⟩
  · simp only [dataPort, if_neg h, outb_mpicData, writeData_isr]
    exact ⟨trivial, trivial⟩

theorem exec_isr (c : Call) (p : Pair) :
    (c.exec p).master.isr = p.master.isr ∧ (c.exec p).slave.isr = p.slave.isr := by
  cases c with
  | remap m s =>
    simp only [Call.exec, remap, remapPic_master, remapPic_slave]
    exact ⟨rfl, rfl⟩
  | disable =>
    simp only [Call.exec, disable, outb_mpicData, outb_spicData]
    exact ⟨writeData_isr _ _, writeData_isr _ _⟩
  | setIrqMask irq => exact outb_dataPort_isr irq _ p
  | clearIrqMask irq => exact outb_dataPort_isr irq _ p

def execCalls (cs : List Call) (p : Pair) : Pair := cs.foldl (fun p c => c.exec p) p

def specCalls (cs : List Call) (a : Abstract) : Abstract := cs.foldl (fun a c => c.spec a) a

/-- **Any sequence of calls.** -/
theorem execCalls_refines (cs : List Call) (hcs : ∀ c ∈ cs, c.Valid) (p : Pair)
    (hp : p.Operational) :
    (execCalls cs p).Operational ∧ abstractOf (execCalls cs p) = specCalls cs (abstractOf p) := by
  induction cs generalizing p with
  | nil => exact ⟨hp, rfl⟩
  | cons c cs ih =>
    obtain ⟨hop, habs⟩ := exec_refines c (hcs c List.mem_cons_self) p hp
    have hrest := ih (fun c' hc' => hcs c' (List.mem_cons_of_mem c hc')) (c.exec p) hop
    rw [habs] at hrest
    exact hrest

/-- The calls `_start` makes: the offsets are `EXCEPTION_COUNT` and 8 more. -/
def startCalls : List Call := [.remap 32 40, .clearIrqMask 1]

/-- After `_start` every line is delivered right above the exception vectors. -/
theorem startCalls_vectorOf (p : Pair) (hp : p.Operational) (k : Fin 16) :
    (execCalls startCalls p).vectorOf k = BitVec.ofNat 8 (32 + k.val) := by
  have habs := (execCalls_refines startCalls (by decide) p hp).2
  have hm : (execCalls startCalls p).master.icw2 = 32 := congrArg Abstract.masterBase habs
  have hs : (execCalls startCalls p).slave.icw2 = 40 := congrArg Abstract.slaveBase habs
  rw [Pair.vectorOf, hm, hs]
  revert k
  decide

/-- `_start` unmasks line 1 and leaves the other lines as they were. -/
theorem startCalls_mask (p : Pair) (hp : p.Operational) (i : ℕ) :
    (execCalls startCalls p).mask.getLsbD i = (p.mask.getLsbD i && decide (i ≠ 1)) := by
  have habs := (execCalls_refines startCalls (by decide) p hp).2
  have hmask : (execCalls startCalls p).mask = p.mask &&& ~~~BitVec.twoPow 16 1 :=
    congrArg Abstract.mask habs
  rw [hmask, BitVec.getLsbD_and, BitVec.getLsbD_not, BitVec.getLsbD_twoPow]
  by_cases hi : i < 16
  · by_cases h1 : i = 1
    · simp [h1]
    · simp [hi, h1, Ne.symm h1]
  · rw [BitVec.getLsbD_of_ge _ _ (Nat.le_of_not_lt hi)]
    rfl

/-- **The driver refines a sixteen-bit mask.** After every valid sequence of calls the chips are
operational and their masks, vector bases and wiring are those of the abstract calls. So after
`_start` only line 1 may have changed its mask, and line `k` is delivered on vector `32 + k`. -/
theorem picProgramming_refines (p : Pair) (hp : p.Operational) :
    (∀ cs : List Call, (∀ c ∈ cs, c.Valid) → (execCalls cs p).Operational ∧
      abstractOf (execCalls cs p) = specCalls cs (abstractOf p)) ∧
    (∀ i, (execCalls startCalls p).mask.getLsbD i = (p.mask.getLsbD i && decide (i ≠ 1))) ∧
    ∀ k, ((execCalls startCalls p).vectorOf k).toNat = 32 + k.val := by
  refine ⟨fun cs hcs => execCalls_refines cs hcs p hp, startCalls_mask p hp, ?_⟩
  intro k
  rw [startCalls_vectorOf p hp k, BitVec.toNat_ofNat]
  omega

/-- Two chips as the boot protocol leaves them: operational, every line masked. -/
def maskedPair : Pair := ⟨⟨0xFF, 0, 0, 0, 0, 0, .ready⟩, ⟨0xFF, 0, 0, 0, 0, 0, .ready⟩⟩

theorem picProgramming_refines_boot :
    maskedPair.Operational ∧
      abstractOf (execCalls [.setIrqMask 9, .remap 32 40, .clearIrqMask 9] maskedPair) =
        ⟨0xFDFF, 32, 40, 0x4, 0x2⟩ := by
  have hp : maskedPair.Operational := ⟨rfl, rfl⟩
  refine ⟨hp, ?_⟩
  rw [((picProgramming_refines maskedPair hp).1 [.setIrqMask 9, .remap 32 40, .clearIrqMask 9]
    (by decide)).2]
  decide

end MegaOS.Pic
