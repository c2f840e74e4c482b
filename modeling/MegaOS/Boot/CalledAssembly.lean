import MegaOS.Foundation.Assembly

/-!
# Assembly called from C++

`interrupts::enabled`, which reads the flags through the stack, and `asm_lgdt`,
which returns far to load `cs`. In 64-bit mode `pushf` pushes eight bytes; a pop
takes as many bytes as its operand has, and `enabled` pops into a 16-bit one.

The stack grows down: what belongs to the callers lies at and above the stack
pointer, up to half the address space away.
-/

namespace MegaOS.Called

open MegaOS.Memory MegaOS.Assembly

/-! ### Instructions -/

/-- The processor with its descriptor table register. -/
structure State where
  cpu : Cpu
  gdtr : BitVec 80

inductive Instr
  | push (r : Reg)
  | pushImm (v : Word)
  | pop (r : Reg)
  /-- A pop into the low 16 bits of a register. -/
  | pop16 (r : Reg)
  | pushf
  /-- `mov ax, imm` -/
  | movAx (v : BitVec 16)
  /-- `mov seg, ax` -/
  | movSeg (seg : SegReg)
  /-- `lgdt [rdi]` -/
  | lgdt
  | retfq

/-- The bits of RFLAGS that `pushf` stores: all but VM and RF. -/
def pushfMask : Word := 0xFCFFFF

/-- `v` in the low 16 bits of `old`. -/
def low16 (old : Word) (v : BitVec 16) : Word := old.extractLsb' 16 48 ++ v

/-- `retfq` pops `rip` and `cs`. -/
def farReturn (s : Cpu) : Cpu :=
  { s with
    rip := s.mem.load64 s.rsp
    rsp := s.rsp + 16
    sel := Function.update s.sel .cs (s.mem.load64 (s.rsp + 8) &&& 0xFFFF) }

def Instr.exec (i : Instr) (s : State) : State :=
  match i with
  | .push r => { s with cpu := s.cpu.push (s.cpu.gpr r) }
  | .pushImm v => { s with cpu := s.cpu.push v }
  | .pop r => { s with cpu := (Assembly.Instr.pop r).exec s.cpu }
  | .pop16 r =>
    { s with
      cpu := { s.cpu with
        gpr := Function.update s.cpu.gpr r (low16 (s.cpu.gpr r) (s.cpu.mem.load s.cpu.rsp 2))
        rsp := s.cpu.rsp + 2 } }
  | .pushf => { s with cpu := s.cpu.push (s.cpu.rflags &&& pushfMask) }
  | .movAx v =>
    { s with cpu := { s.cpu with gpr := Function.update s.cpu.gpr .rax (low16 (s.cpu.gpr .rax) v) } }
  | .movSeg seg =>
    { s with cpu := { s.cpu with
        sel := Function.update s.cpu.sel seg ((s.cpu.gpr .rax).setWidth 16 |>.setWidth 64) } }
  | .lgdt => { s with gdtr := s.cpu.mem.load (s.cpu.gpr .rdi) 10 }
  | .retfq => { s with cpu := farReturn s.cpu }

def execAll (is : List Instr) (s : State) : State := is.foldl (fun s i => i.exec s) s

/-! ### The routines -/

/-- The two routines; `enabled` lets the compiler choose the register of `eflags_low`. -/
inductive Routine
  | enabled (eflagsLow : Reg)
  | asmLgdt

def Routine.code : Routine → List Instr
  | .enabled eflagsLow => [.pushf, .pop16 eflagsLow]
  | .asmLgdt =>
    [.lgdt, .movAx 0x30, .movSeg .ds, .movSeg .es, .movSeg .fs, .movSeg .gs, .movSeg .ss,
      .pop .rdi, .pushImm 0x28, .push .rdi, .retfq]

/-- `return eflags_low & 0x200`, from the register. -/
def enabledResult (eflagsLow : Reg) (s : State) : Bool :=
  ((s.cpu.gpr eflagsLow).setWidth 16 : BitVec 16) &&& 0x200 ≠ 0

/-- `x` lies at `a` or above it. -/
def AtOrAbove (a x : Addr) : Prop := (x - a).toNat < 2 ^ 63

/-- What the callers of `enabled` rely on. -/
structure EnabledNeutral (eflagsLow : Reg) (s t : State) : Prop where
  rsp : t.cpu.rsp = s.cpu.rsp
  frame : ∀ x, AtOrAbove s.cpu.rsp x → t.cpu.mem x = s.cpu.mem x
  result : enabledResult eflagsLow t = s.cpu.rflags.getLsbD 9

/-- What the callers of `asm_lgdt` rely on: a near return, with the selectors loaded. -/
structure LgdtNeutral (s t : State) : Prop where
  rip : t.cpu.rip = s.cpu.mem.load64 s.cpu.rsp
  rsp : t.cpu.rsp = s.cpu.rsp + 8
  cs : t.cpu.sel .cs = 0x28
  data : ∀ seg ≠ .cs, t.cpu.sel seg = 0x30
  saved : ∀ r ∈ calleeSaved, t.cpu.gpr r = s.cpu.gpr r
  frame : ∀ x, AtOrAbove (s.cpu.rsp + 8) x → t.cpu.mem x = s.cpu.mem x

def Routine.Neutral (routine : Routine) (s : State) : Prop :=
  match routine with
  | .enabled eflagsLow => EnabledNeutral eflagsLow s (execAll routine.code s)
  | .asmLgdt => LgdtNeutral s (execAll routine.code s)

/-! ### Stores below the callers' part of the stack -/

/-- A store of a word `d` bytes below `a`, or further down. -/
theorem store64_atOrAbove (m : Mem) (a : Addr) (v : Word) {d : ℕ} (hd : 8 ≤ d) (hd' : d ≤ 16)
    {x : Addr} (hx : AtOrAbove a x) : m.store64 (a - BitVec.ofNat 64 d) v x = m x := by
  apply store_apply_of_le
  have hsub : x - (a - BitVec.ofNat 64 d) = (x - a) + BitVec.ofNat 64 d := by
    rw [sub_sub_eq_add_sub, sub_add_eq_add_sub]
  have hlt : (x - a).toNat < 2 ^ 63 := hx
  rw [hsub, BitVec.toNat_add, BitVec.toNat_ofNat]
  omega

/-! ### `enabled` -/

theorem low16_setWidth (old : Word) (v : BitVec 16) : (low16 old v).setWidth 16 = v := by
  apply BitVec.eq_of_getLsbD_eq
  intro i hi
  rw [low16, BitVec.getLsbD_setWidth, BitVec.getLsbD_append, decide_eq_true hi, Bool.true_and]
  exact if_pos hi

/-- The low 16 bits of a stored word. -/
theorem load2_store64 (m : Mem) (a : Addr) (v : Word) : (m.store64 a v).load a 2 = v.setWidth 16 := by
  apply BitVec.eq_of_getLsbD_eq
  intro i hi
  rw [getLsbD_load _ 2 a i hi, Mem.store64, store_apply_offset m a 8 v (by omega) (by decide),
    BitVec.getLsbD_extractLsb', decide_eq_true (by omega), Bool.true_and,
    BitVec.getLsbD_setWidth, decide_eq_true hi, Bool.true_and]
  congr 1
  omega

/-- The stack pointer is left six bytes too low. -/
theorem enabled_rsp (eflagsLow : Reg) (s : State) :
    (execAll (Routine.enabled eflagsLow).code s).cpu.rsp = s.cpu.rsp - 6 := by
  show s.cpu.rsp - 8 + 2 = s.cpu.rsp - 6
  rw [sub_add]
  rfl

theorem enabled_frame (eflagsLow : Reg) (s : State) {x : Addr} (hx : AtOrAbove s.cpu.rsp x) :
    (execAll (Routine.enabled eflagsLow).code s).cpu.mem x = s.cpu.mem x :=
  store64_atOrAbove s.cpu.mem s.cpu.rsp _ (Nat.le_refl 8) (by decide) hx

theorem enabled_result (eflagsLow : Reg) (s : State) :
    enabledResult eflagsLow (execAll (Routine.enabled eflagsLow).code s) =
      s.cpu.rflags.getLsbD 9 := by
  have hlow : ((execAll (Routine.enabled eflagsLow).code s).cpu.gpr eflagsLow).setWidth 16 =
      (s.cpu.rflags &&& pushfMask).setWidth 16 := by
    show ((Function.update s.cpu.gpr eflagsLow _) eflagsLow).setWidth 16 = _
    rw [Function.update_self, low16_setWidth]
    exact load2_store64 _ _ _
  have hbit : ∀ f : Word, (((f &&& pushfMask).setWidth 16 : BitVec 16) &&& 0x200 ≠ 0 : Bool) =
      f.getLsbD 9 := by
    intro f
    rw [show (0x200 : BitVec 16) = BitVec.twoPow 16 9 from rfl, BitVec.and_twoPow]
    have hget : ((f &&& pushfMask).setWidth 16 : BitVec 16).getLsbD 9 = f.getLsbD 9 := by
      have hmask : pushfMask.getLsbD 9 = true := by decide
      rw [BitVec.getLsbD_setWidth, BitVec.getLsbD_and, hmask, Bool.and_true]
      rfl
    rw [hget]
    cases f.getLsbD 9 <;> decide
  rw [enabledResult, hlow, hbit]

/-- **What `enabled` keeps.** The answer is right, and only the register of the operand, the stack
pointer and the stack below it are touched; but the stack pointer is not put back. -/
theorem enabled_keeps (eflagsLow : Reg) (s t : State)
    (ht : t = execAll (Routine.enabled eflagsLow).code s) :
    enabledResult eflagsLow t = s.cpu.rflags.getLsbD 9 ∧
      (∀ r ≠ eflagsLow, t.cpu.gpr r = s.cpu.gpr r) ∧
      (∀ x, AtOrAbove s.cpu.rsp x → t.cpu.mem x = s.cpu.mem x) ∧ t.cpu.rsp = s.cpu.rsp - 6 := by
  subst ht
  refine ⟨enabled_result eflagsLow s, ?_, fun x => enabled_frame eflagsLow s,
    enabled_rsp eflagsLow s⟩
  intro r hr
  exact Function.update_of_ne hr _ _

theorem not_enabledNeutral (eflagsLow : Reg) (s : State) :
    ¬(Routine.enabled eflagsLow).Neutral s := by
  intro h
  have hrsp := (enabled_rsp eflagsLow s).symm.trans h.rsp
  have hsix : (6 : Word) = 0 := sub_eq_self.mp hrsp
  exact absurd hsix (by decide)

/-! ### `asm_lgdt` -/

/-- The frame rebuilt over the return address. -/
theorem farFrame_wordsAt (m : Mem) (a : Addr) (ret : Word) :
    WordsAt ((m.store64 (a - 8) 0x28).store64 (a - 8 - 8) ret) (a - 8 - 8) [ret, 0x28] :=
  ((wordsAt_nil m a).push (by simp) 0x28).push (by simp) ret

theorem asmLgdt_neutral (s : State) : Routine.asmLgdt.Neutral s := by
  obtain ⟨hret, hcs, -⟩ := farFrame_wordsAt s.cpu.mem (s.cpu.rsp + 8) (s.cpu.mem.load64 s.cpu.rsp)
  have hselector : ∀ old, ((low16 old 0x30).setWidth 16 |>.setWidth 64) = (0x30 : Word) := by
    intro old
    rw [low16_setWidth]
    rfl
  constructor
  · exact hret
  · show s.cpu.rsp + 8 - 8 - 8 + 16 = s.cpu.rsp + 8
    rw [sub_sub, sub_add]
    exact sub_zero _
  · have hmasked := congrArg (· &&& (0xFFFF : Word)) hcs
    exact hmasked
  · intro seg hseg
    cases seg with
    | cs => exact absurd rfl hseg
    | _ => exact hselector (s.cpu.gpr .rax)
  · intro r hr
    simp only [calleeSaved, List.mem_cons, List.not_mem_nil, or_false] at hr
    rcases hr with rfl | rfl | rfl | rfl | rfl | rfl <;> rfl
  · intro x hx
    have hstores : s.cpu.rsp + 8 - 8 - 8 = s.cpu.rsp + 8 - BitVec.ofNat 64 16 := by
      rw [sub_sub]
      rfl
    show ((s.cpu.mem.store64 (s.cpu.rsp + 8 - 8) 0x28).store64 (s.cpu.rsp + 8 - 8 - 8) _) x = _
    rw [hstores, store64_atOrAbove _ _ _ (by decide) (by decide) hx]
    exact store64_atOrAbove _ _ _ (Nat.le_refl 8) (by decide) hx

/-- **Which routine is stack-neutral**: `asm_lgdt` in every state, `enabled` in none. -/
theorem neutral_iff (routine : Routine) (s : State) : routine.Neutral s ↔ routine = .asmLgdt := by
  cases routine with
  | enabled eflagsLow => exact iff_of_false (not_enabledNeutral eflagsLow s) nofun
  | asmLgdt => exact iff_of_true (asmLgdt_neutral s) rfl

/-- With the stack at 0x8000 and interrupts enabled, the stack pointer comes back as 0x7FFA. -/
theorem enabled_at_8000_not_neutral : ¬(Routine.enabled .rax).Neutral
    ⟨⟨fun _ => 0, 0x8000, 0x1000, 0x202, fun _ => 0, fun _ => 0⟩, 0⟩ :=
  not_enabledNeutral .rax _

end MegaOS.Called
