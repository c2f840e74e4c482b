import MegaOS.Foundation.Assembly

/-!
# The interrupt frame

`cpu::registers` and `interrupts::interrupt_frame` are packed structures of
64-bit fields. A C++ handler receives a pointer to one and reads its fields out
of the interrupted stack, so a frame is whatever the memory holds at the
field offsets.
-/

namespace MegaOS.Interrupts

open MegaOS.Memory MegaOS.Assembly

/-- `cpu::registers`, in field order. -/
structure Registers where
  r15 : Word
  r14 : Word
  r13 : Word
  r12 : Word
  r11 : Word
  r10 : Word
  r9 : Word
  r8 : Word
  rsi : Word
  rdi : Word
  rbp : Word
  rdx : Word
  rcx : Word
  rbx : Word
  rax : Word

/-- The field named after a register. -/
def Registers.get (r : Registers) : Reg → Word
  | .rax => r.rax
  | .rbx => r.rbx
  | .rcx => r.rcx
  | .rdx => r.rdx
  | .rbp => r.rbp
  | .rdi => r.rdi
  | .rsi => r.rsi
  | .r8 => r.r8
  | .r9 => r.r9
  | .r10 => r.r10
  | .r11 => r.r11
  | .r12 => r.r12
  | .r13 => r.r13
  | .r14 => r.r14
  | .r15 => r.r15

/-- The registers in the order of their fields. -/
def Registers.fieldOrder : List Reg :=
  [.r15, .r14, .r13, .r12, .r11, .r10, .r9, .r8, .rsi, .rdi, .rbp, .rdx, .rcx, .rbx, .rax]

def Registers.load (m : Mem) (p : Addr) : Registers where
  r15 := m.load64 p
  r14 := m.load64 (p + 8)
  r13 := m.load64 (p + 16)
  r12 := m.load64 (p + 24)
  r11 := m.load64 (p + 32)
  r10 := m.load64 (p + 40)
  r9 := m.load64 (p + 48)
  r8 := m.load64 (p + 56)
  rsi := m.load64 (p + 64)
  rdi := m.load64 (p + 72)
  rbp := m.load64 (p + 80)
  rdx := m.load64 (p + 88)
  rcx := m.load64 (p + 96)
  rbx := m.load64 (p + 104)
  rax := m.load64 (p + 112)

/-- `interrupts::interrupt_frame`, in field order. -/
structure InterruptFrame where
  gprs : Registers
  errCode : Word
  intNo : Word
  rip : Word
  cs : Word
  rflags : Word
  rsp : Word
  ss : Word

def InterruptFrame.load (m : Mem) (p : Addr) : InterruptFrame where
  gprs := Registers.load m p
  errCode := m.load64 (p + 120)
  intNo := m.load64 (p + 128)
  rip := m.load64 (p + 136)
  cs := m.load64 (p + 144)
  rflags := m.load64 (p + 152)
  rsp := m.load64 (p + 160)
  ss := m.load64 (p + 168)

/-- The frame's fields as the words of its memory image. -/
def InterruptFrame.words (f : InterruptFrame) : List Word :=
  Registers.fieldOrder.map f.gprs.get ++
    [f.errCode, f.intNo, f.rip, f.cs, f.rflags, f.rsp, f.ss]

theorem InterruptFrame.words_injective {f g : InterruptFrame} (h : f.words = g.words) : f = g := by
  obtain ⟨⟨_, _, _, _, _, _, _, _, _, _, _, _, _, _, _⟩, _, _, _, _, _, _, _⟩ := f
  obtain ⟨⟨_, _, _, _, _, _, _, _, _, _, _, _, _, _, _⟩, _, _, _, _, _, _, _⟩ := g
  simpa [words, Registers.fieldOrder, Registers.get, and_assoc] using h

/-- The words from `p` upwards are those of the frame a handler sees at `p`. -/
theorem InterruptFrame.wordsAt_load (m : Mem) (p : Addr) : WordsAt m p (load m p).words := by
  have h := wordsAt_loads m 22 p
  have hzero : p + BitVec.ofNat 64 (8 * 0) = p := by simp
  simp only [List.range, List.range.loop, List.map_cons, List.map_nil, hzero] at h
  exact h

/-- Two blocks of words of one length at one address are the same block. -/
theorem wordsAt_unique {m : Mem} {vs : List Word} : ∀ {ws : List Word} {a : Addr},
    vs.length = ws.length → WordsAt m a vs → WordsAt m a ws → vs = ws := by
  induction vs with
  | nil => intro ws a hlen _ _; exact (List.length_eq_zero_iff.mp hlen.symm).symm
  | cons v vs ih =>
    intro ws a hlen hv hw
    cases ws with
    | nil => simp at hlen
    | cons w ws =>
      rw [ih (by simpa using hlen) hv.2 hw.2, ← hv.1, ← hw.1]

/-- A frame laid out at `p` is the frame a handler sees there. -/
theorem InterruptFrame.load_eq {m : Mem} {p : Addr} {f : InterruptFrame} (h : WordsAt m p f.words) :
    load m p = f :=
  words_injective (wordsAt_unique rfl (wordsAt_load m p) h)

end MegaOS.Interrupts
