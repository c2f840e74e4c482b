import MegaOS.Boot.Gdt
import MegaOS.Interrupts.FrameFidelity
import MegaOS.Interrupts.IdtMemory
import MegaOS.Foundation.Runs

/-!
# Interrupts through the tables in memory

`GDT::install` and `IDT::install` may be called in any order and any number of
times, and any other code may run in between, as long as it does not write to the
tables. An interrupt is taken as the processor takes it: the register gives the
table of gates, the gate a selector and an offset, and the other register the table
in which the selector is looked up.

Once both tables are installed, every interrupt whose vector the assembly has a
stub for arrives at that stub. This is the delivery that the machine of the whole
kernel starts from.
-/

namespace MegaOS.Tables

open MegaOS.Memory MegaOS.Records MegaOS.Assembly MegaOS.Interrupts MegaOS.IdtMemory MegaOS.Gdt
  MegaOS.Runs

/-! ### The objects in memory -/

/-- The tables and the arrays of the data section, with their sizes. -/
def objects (gdt idt : Addr) (arrays : AsmArray → Addr) : List (Addr × ℕ) :=
  [(gdt, 56), (idt, 4096), (arrays .exceptionsHandlers, 8 * 32),
    (arrays .interruptsHandlers, 8 * 223)]

/-- Where the linker puts them. -/
structure Layout where
  gdt : Addr
  idt : Addr
  arrays : AsmArray → Addr
  apart : (objects gdt idt arrays).Pairwise fun p q => RangesApart p.1 p.2 q.1 q.2

/-- A layout below `0x4000`. -/
def lowLayout : Layout where
  gdt := 0x1000
  idt := 0x2000
  arrays a := if a = .exceptionsHandlers then 0x1800 else 0x3000
  apart := by decide

def Layout.objects (L : Layout) : List (Addr × ℕ) := Tables.objects L.gdt L.idt L.arrays

/-- The range is apart from all of them. -/
def Layout.Clear (L : Layout) (a : Addr) (n : ℕ) : Prop :=
  ∀ o ∈ L.objects, RangesApart o.1 o.2 a n

instance (L : Layout) (a : Addr) (n : ℕ) : Decidable (L.Clear a n) :=
  inferInstanceAs (Decidable (∀ o ∈ L.objects, _))

/-- None of their bytes differ. -/
def Layout.Untouched (L : Layout) (m m' : Mem) : Prop :=
  ∀ o ∈ L.objects, ∀ j < o.2, m' (o.1 + BitVec.ofNat 64 j) = m (o.1 + BitVec.ofNat 64 j)

instance (L : Layout) (m m' : Mem) : Decidable (L.Untouched m m') :=
  inferInstanceAs (Decidable (∀ o ∈ L.objects, ∀ j < o.2, _))

/-! ### The machine -/

structure State where
  /-- With the register of the segment descriptors. -/
  cpu : Called.State
  idtr : BitVec 80
  gdtInstalled : Bool
  idtInstalled : Bool
  /-- An interrupt did not get through the tables. -/
  lost : Bool

inductive Event
  /-- A call of `GDT::install`, whose `gdt_ptr` lies at `gdtPtr`; `asm_lgdt` returns to `ret`. -/
  | gdtInstall (gdtPtr ret : Addr)
  /-- A call of `IDT::install`, whose `idt_ptr` lies at `idtPtr`. -/
  | idtInstall (idtPtr : Addr)
  /-- Other code, after which the processor is in the state `cpu`. -/
  | other (cpu : Cpu)
  /-- An interrupt or exception on vector `v`, with the error code `e` if the vector has one. -/
  | interrupt (v : Fin 256) (e : Word)

/-- A segment that code of ring 0 runs in in 64-bit mode. -/
def isKernelCode (segment : Segment) : Bool :=
  segment.isPresent && segment.codeOrData && segment.type.getLsbD 3 && segment.dpl == 0 &&
    segment.long && !segment.big

/-- The processor takes vector `v`: through a present interrupt gate without a stack switch, into
kernel code. -/
def deliverThrough (s : State) (v : ℕ) (errorCode : Option Word) : Option Cpu :=
  if 16 * v + 15 ≤ registerLimit s.idtr then
    let gate := gateAt s.cpu.cpu.mem (element (registerBase s.idtr) 16 v)
    if gate.flags.getLsbD 7 = true ∧ gate.flags &&& 0b11111 = intr32 ∧ gate.ist = 0 then
      match lookupSegment s.cpu.cpu.mem s.cpu.gdtr gate.selector with
      | some segment =>
        if isKernelCode segment then
          some (s.cpu.cpu.deliver (gate.selector.setWidth 64) gate.offset errorCode)
        else none
      | none => none
    else none
  else none

/-- `IDT::install` the first time, with `idt_ptr` at `idtPtr`; `isr::install`, which it calls first,
writes to none of the tables. -/
def installIdt (L : Layout) (idtPtr : Addr) (s : State) : State :=
  let m := storeAll idtPtr (storeTable L.idt L.arrays s.cpu.cpu.mem)
    (tableRegister (256 * 16 - 1) L.idt)
  { s with
    cpu := { s.cpu with cpu := { s.cpu.cpu with mem := m } }
    idtr := m.load idtPtr 10
    idtInstalled := true }

def step (L : Layout) (s : State) : Event → Option State
  | .gdtInstall gdtPtr ret =>
    if s.gdtInstalled then some s
    else if L.Clear gdtPtr 10 ∧ L.Clear (stackUse s.cpu.cpu.rsp) 16 ∧
        RangesApart gdtPtr 10 (stackUse s.cpu.cpu.rsp) 16 then
      some { s with cpu := install L.gdt gdtPtr ret s.cpu, gdtInstalled := true }
    else none
  | .idtInstall idtPtr =>
    if s.idtInstalled then some s
    else if L.Clear idtPtr 10 then some (installIdt L idtPtr s)
    else none
  | .other cpu =>
    if L.Untouched s.cpu.cpu.mem cpu.mem then some { s with cpu := { s.cpu with cpu := cpu } }
    else none
  | .interrupt v e =>
    if L.Clear ((s.cpu.cpu.rsp &&& ~~~15) - 48) 48 then
      match deliverThrough s v (pushedError v e) with
      | some cpu => some { s with cpu := { s.cpu with cpu := cpu } }
      | none => some { s with lost := true }
    else none

def machine (L : Layout) : Machine State Event := ⟨step L⟩

/-- The processor as the boot loader leaves it, with the kernel's data section in memory. -/
structure Image (L : Layout) (addr : Label → Addr) where
  cpu : Called.State
  idtr : BitVec 80
  data : DataSection addr L.arrays cpu.cpu.mem

def start {L : Layout} {addr : Label → Addr} (image : Image L addr) : State :=
  ⟨image.cpu, image.idtr, false, false, false⟩

/-- Stubs of 16 bytes each, with the common code behind them. -/
def stubAddr : Label → Addr
  | .exceptionHandler v | .interruptHandler v => 0x8000 + BitVec.ofNat 64 (16 * v)
  | .handleIsrCommon => 0x9000
  | .handleIrqCommon => 0x9100

/-- The bytes of the two arrays in `lowLayout`, and 0 everywhere else. -/
def lowMemory : Mem := fun x =>
  if x.toNat < 0x1800 then 0
  else if x.toNat < 0x1900 then
    (stubAddr (.exceptionHandler ((x.toNat - 0x1800) / 8))).extractLsb' (8 * (x.toNat % 8)) 8
  else if x.toNat < 0x3000 then 0
  else if x.toNat < 0x36F8 then
    (stubAddr (.interruptHandler (32 + (x.toNat - 0x3000) / 8))).extractLsb' (8 * (x.toNat % 8)) 8
  else 0

theorem lowMemory_dataSection : DataSection stubAddr lowLayout.arrays lowMemory := by
  have hexceptions : ∀ i < 32, lowMemory.load64 (element 0x1800 8 i) =
      stubAddr (.exceptionHandler i) := by decide
  have hinterrupts : ∀ i < 223, lowMemory.load64 (element 0x3000 8 i) =
      stubAddr (.interruptHandler (32 + i)) := by decide +kernel
  intro a i l hl
  obtain ⟨hi, rfl⟩ := List.getElem?_eq_some_iff.mp hl
  cases a with
  | exceptionsHandlers =>
    rw [AsmArray.emitted, List.length_map, List.length_range] at hi
    simp only [AsmArray.emitted, List.getElem_map, List.getElem_range]
    exact hexceptions i hi
  | interruptsHandlers =>
    rw [AsmArray.emitted, List.length_map, List.length_range'] at hi
    simp only [AsmArray.emitted, List.getElem_map, List.getElem_range', Nat.one_mul]
    exact hinterrupts i hi

/-- A stack below `0x6000`, and neither register loaded. -/
def lowImage : Image lowLayout stubAddr where
  cpu := { cpu := { zeroCpu with rsp := 0x6000, mem := lowMemory }, gdtr := 0 }
  idtr := 0
  data := lowMemory_dataSection

/-! ### What stays in memory -/

/-- The bytes of the table of gates are those the install stores, and the register points to it. -/
structure IdtLoaded (addr : Label → Addr) (table : Addr) (m : Mem) (idtr : BitVec 80) : Prop where
  base : registerBase idtr = table
  limit : registerLimit idtr = 4095
  gates : ∀ v : Fin 256, v.val ≠ 255 → GateTo (tableOf m table v) (addr (stubOf v))

theorem IdtLoaded.congr {addr : Label → Addr} {table : Addr} {m m' : Mem} {idtr : BitVec 80}
    (h : IdtLoaded addr table m idtr) (hm : ∀ x, ¬Outside table 4096 x → m' x = m x) :
    IdtLoaded addr table m' idtr := by
  refine ⟨h.base, h.limit, ?_⟩
  intro v hv
  have hgate : tableOf m' table v = tableOf m table v := by
    refine gateAt_congr fun x hx => hm x fun hout => hx ?_
    exact outside_element v.isLt (by decide) hout
  rw [hgate]
  exact h.gates v hv

/-- What holds of every state a run reaches. -/
structure Inv (L : Layout) (addr : Label → Addr) (s : State) : Prop where
  data : DataSection addr L.arrays s.cpu.cpu.mem
  gdt : s.gdtInstalled = true → Gdt.Loaded L.gdt s.cpu.cpu.mem s.cpu.gdtr
  idt : s.idtInstalled = true → IdtLoaded addr L.idt s.cpu.cpu.mem s.idtr

section Layout

variable {L : Layout}

theorem Layout.gdt_mem : (L.gdt, 56) ∈ L.objects := List.mem_cons_self

theorem Layout.idt_mem : (L.idt, 4096) ∈ L.objects := List.mem_cons_of_mem _ List.mem_cons_self

theorem Layout.arrays_mem (a : AsmArray) : (L.arrays a, 8 * a.emitted.length) ∈ L.objects := by
  cases a <;> simp [Layout.objects, Tables.objects, AsmArray.emitted]

theorem Layout.gdt_idt : RangesApart L.gdt 56 L.idt 4096 :=
  (List.pairwise_cons.mp L.apart).1 _ List.mem_cons_self

theorem Layout.gdt_arrays (a : AsmArray) :
    RangesApart L.gdt 56 (L.arrays a) (8 * a.emitted.length) := by
  apply (List.pairwise_cons.mp L.apart).1 (L.arrays a, 8 * a.emitted.length)
  cases a <;> simp [AsmArray.emitted]

theorem Layout.idt_arrays (a : AsmArray) :
    RangesApart L.idt 4096 (L.arrays a) (8 * a.emitted.length) := by
  apply (List.pairwise_cons.mp (List.pairwise_cons.mp L.apart).2).1
    (L.arrays a, 8 * a.emitted.length)
  cases a <;> simp [AsmArray.emitted]

/-- A byte of an object, by its distance from the object's address. -/
theorem Layout.Untouched.apply {m m' : Mem} (h : L.Untouched m m') {a x : Addr} {n : ℕ}
    (ho : (a, n) ∈ L.objects) (hx : ¬Outside a n x) : m' x = m x := by
  have hbyte := h (a, n) ho (x - a).toNat (Nat.not_le.mp hx)
  rw [BitVec.ofNat_toNat, BitVec.setWidth_eq] at hbyte
  have hback : a + (x - a) = x := add_sub_cancel a x
  rw [hback] at hbyte
  exact hbyte

/-- Nothing is written to an object from outside all of them. -/
theorem Layout.Clear.outside {a : Addr} {n : ℕ} (h : L.Clear a n) {b x : Addr} {k : ℕ}
    (ho : (b, k) ∈ L.objects) (hx : ¬Outside b k x) : Outside a n x :=
  ((h (b, k) ho).outside x).resolve_left hx

end Layout

/-- A push within a range that reaches below the stack pointer. -/
theorem push_outside {s : Cpu} {base x : Addr} {n k : ℕ}
    (hrsp : s.rsp = base + BitVec.ofNat 64 (8 * (k + 1))) (hk : 8 * (k + 1) ≤ n) (hn : n ≤ 2 ^ 64)
    (hx : Outside base n x) (v : Word) :
    (s.push v).rsp = base + BitVec.ofNat 64 (8 * k) ∧ (s.push v).mem x = s.mem x := by
  have hbelow : s.rsp - 8 = base + BitVec.ofNat 64 (8 * k) := by
    rw [hrsp, Nat.mul_succ, BitVec.ofNat_add, ← add_assoc]
    exact add_sub_cancel_right _ _
  refine ⟨hbelow, ?_⟩
  show s.mem.store64 (s.rsp - 8) v x = s.mem x
  rw [hbelow]
  exact store_outside (k := 8) s.mem v (by omega) hn hx

/-- A delivery writes 48 bytes at most. -/
theorem deliver_outside (s : Cpu) (selector : Word) (offset : Addr) (errorCode : Option Word)
    {x : Addr} (hx : Outside ((s.rsp &&& ~~~15) - 48) 48 x) :
    (s.deliver selector offset errorCode).mem x = s.mem x := by
  have hrsp : ({ s with rsp := s.rsp &&& ~~~15 } : Cpu).rsp =
      ((s.rsp &&& ~~~15) - 48) + BitVec.ofNat 64 (8 * (5 + 1)) := (sub_add_cancel _ 48).symm
  obtain ⟨h₁, hm₁⟩ := push_outside hrsp (by decide) (by decide) hx (s.sel .ss)
  obtain ⟨h₂, hm₂⟩ := push_outside h₁ (by decide) (by decide) hx s.rsp
  obtain ⟨h₃, hm₃⟩ := push_outside h₂ (by decide) (by decide) hx s.rflags
  obtain ⟨h₄, hm₄⟩ := push_outside h₃ (by decide) (by decide) hx (s.sel .cs)
  obtain ⟨h₅, hm₅⟩ := push_outside h₄ (by decide) (by decide) hx s.rip
  have hfive := hm₅.trans (hm₄.trans (hm₃.trans (hm₂.trans hm₁)))
  cases errorCode with
  | none => exact hfive
  | some e => exact (push_outside h₅ (by decide) (by decide) hx e).2.trans hfive

section Runs

variable {L : Layout} {addr : Label → Addr}

/-- Code that leaves the objects alone keeps the invariant. -/
theorem Inv.untouched {s s' : State} (hs : Inv L addr s)
    (hm : ∀ o ∈ L.objects, ∀ x, ¬Outside o.1 o.2 x → s'.cpu.cpu.mem x = s.cpu.cpu.mem x)
    (hgdtr : s'.cpu.gdtr = s.cpu.gdtr) (hidtr : s'.idtr = s.idtr)
    (hgdt : s'.gdtInstalled = s.gdtInstalled) (hidt : s'.idtInstalled = s.idtInstalled) :
    Inv L addr s' := by
  constructor
  · exact hs.data.congr fun a => hm _ (L.arrays_mem a)
  · rw [hgdt, hgdtr]
    exact fun h => (hs.gdt h).congr (hm _ L.gdt_mem)
  · rw [hidt, hidtr]
    exact fun h => (hs.idt h).congr (hm _ L.idt_mem)

/-- `GDT::install` loads its table, and leaves the other objects alone. -/
theorem install_inv {s : State} (hs : Inv L addr s) {gdtPtr ret : Addr} (hptr : L.Clear gdtPtr 10)
    (hstack : L.Clear (stackUse s.cpu.cpu.rsp) 16)
    (hapart : RangesApart gdtPtr 10 (stackUse s.cpu.cpu.rsp) 16) :
    Inv L addr { s with cpu := install L.gdt gdtPtr ret s.cpu, gdtInstalled := true } := by
  obtain ⟨hloaded, hframe⟩ := install_loaded L.gdt gdtPtr ret s.cpu hapart
    (hstack _ L.gdt_mem) (hptr _ L.gdt_mem)
  have hother : ∀ {b : Addr} {k : ℕ}, (b, k) ∈ L.objects → RangesApart L.gdt 56 b k →
      ∀ x, ¬Outside b k x → (install L.gdt gdtPtr ret s.cpu).cpu.mem x = s.cpu.cpu.mem x := by
    intro b k ho hb x hx
    exact hframe x ((hb.outside x).resolve_right hx) (hptr.outside ho hx) (hstack.outside ho hx)
  constructor
  · exact hs.data.congr fun a => hother (L.arrays_mem a) (L.gdt_arrays a)
  · exact fun _ => hloaded
  · exact fun h => (hs.idt h).congr (hother L.idt_mem L.gdt_idt)

/-- `IDT::install` loads its table, and leaves the other objects alone. -/
theorem installIdt_inv {s : State} (hs : Inv L addr s) {idtPtr : Addr} (hptr : L.Clear idtPtr 10) :
    Inv L addr (installIdt L idtPtr s) := by
  obtain ⟨m, hm⟩ : ∃ m, m = storeAll idtPtr (storeTable L.idt L.arrays s.cpu.cpu.mem)
    (tableRegister (256 * 16 - 1) L.idt) := ⟨_, rfl⟩
  have hmem : (installIdt L idtPtr s).cpu.cpu.mem = m := hm.symm
  have hidtr : (installIdt L idtPtr s).idtr = m.load idtPtr 10 := by rw [hm]; rfl
  have hregister := load_tableRegister (storeTable L.idt L.arrays s.cpu.cpu.mem) idtPtr
    (256 * 16 - 1) L.idt
  rw [← hm] at hregister
  have hwritten : ∀ x, Outside idtPtr 10 x → m x = storeTable L.idt L.arrays s.cpu.cpu.mem x := by
    rw [hm]
    exact fun x hx => storeAll_outside _ (tableRegister_stop _ _) (by decide) hx
  have hother : ∀ {b : Addr} {k : ℕ}, (b, k) ∈ L.objects → RangesApart L.idt 4096 b k →
      ∀ x, ¬Outside b k x → (installIdt L idtPtr s).cpu.cpu.mem x = s.cpu.cpu.mem x := by
    intro b k ho hb x hx
    rw [hmem, hwritten x (hptr.outside ho hx)]
    exact storeTable_outside _ ((hb.outside x).resolve_right hx)
  constructor
  · exact hs.data.congr fun a => hother (L.arrays_mem a) (L.idt_arrays a)
  · exact fun h => (hs.gdt h).congr (hother L.gdt_mem L.gdt_idt.symm)
  · intro _
    have hstored :
        IdtLoaded addr L.idt (storeTable L.idt L.arrays s.cpu.cpu.mem) (m.load idtPtr 10) :=
      ⟨hregister.2, hregister.1, storeTable_gateTo L.idt_arrays hs.data⟩
    rw [hidtr, hmem]
    exact hstored.congr fun x hx => hwritten x (hptr.outside L.idt_mem hx)

/-! ### Delivery -/

/-- Through loaded tables the processor takes every vector below 255 to its stub. -/
theorem deliverThrough_of_loaded {s : State} (hgdt : Gdt.Loaded L.gdt s.cpu.cpu.mem s.cpu.gdtr)
    (hidt : IdtLoaded addr L.idt s.cpu.cpu.mem s.idtr) {v : Fin 256} (hv : v.val ≠ 255)
    (errorCode : Option Word) : deliverThrough s v errorCode =
      some (s.cpu.cpu.deliver (kernelCs.setWidth 64) (addr (stubOf v)) errorCode) := by
  have hgate := hidt.gates v hv
  obtain ⟨segment, hlookup, hcode⟩ : ∃ segment,
      lookupSegment s.cpu.cpu.mem s.cpu.gdtr (kernelCs.setWidth 16) = some segment ∧
        isKernelCode segment = true := by
    refine ⟨ringZero true 0 true false false, ?_, by decide⟩
    rw [lookupSegment_of_loaded hgdt]
    decide
  have hlimit : 16 * v.val + 15 ≤ registerLimit s.idtr := by
    rw [hidt.limit]
    omega
  have hentry : gateAt s.cpu.cpu.mem (element (registerBase s.idtr) 16 v) =
      tableOf s.cpu.cpu.mem L.idt v := by
    rw [hidt.base]
    rfl
  have hselector : ((kernelCs.setWidth 16).setWidth 64 : Word) = kernelCs.setWidth 64 := by decide
  simp only [deliverThrough, if_pos hlimit, hentry]
  rw [if_pos ⟨hgate.isPresent, hgate.gateType, hgate.ist⟩, hgate.selector, hlookup, hgate.offset,
    hselector]
  exact if_pos hcode

/-- The interrupt is at the stub of its vector, which calls the handler of the vector with the
frame of the interrupted code. -/
def ArrivesAt (addr : Label → Addr) (s : Cpu) (v : ℕ) (e : Word) (t : Cpu) : Prop :=
  t = atStub s (kernelCs.setWidth 64) (addr (stubOf v)) v e ∧ t.rip = addr (stubOf v) ∧
    t.rflags.getLsbD 9 = false ∧
    ∃ rest u, Assembly.run text 1 (text (stubOf v)) t = some (.calls (calleeOf v) rest u) ∧
      InterruptFrame.load u.mem (u.gpr .rdi) = builtFrame s v e

theorem atStub_arrives (s : Cpu) (v : Fin 256) (e : Word) :
    ArrivesAt addr s v e (atStub s (kernelCs.setWidth 64) (addr (stubOf v)) v e) := by
  obtain ⟨u, hrun, hrdi, -, hwords⟩ :=
    runStub_spec s (kernelCs.setWidth 64) (addr (stubOf v)) v e v.isLt
  have hflag : (s.rflags &&& ~~~gateClears).getLsbD 9 = false := by
    have hclears : (~~~gateClears).getLsbD 9 = false := by decide
    rw [BitVec.getLsbD_and, hclears, Bool.and_false]
  refine ⟨rfl, ?_, ?_, _, u, hrun, ?_⟩
  · rw [atStub]
    cases pushedError v e <;> rfl
  · rw [atStub]
    cases pushedError v e <;> exact hflag
  · rw [hrdi]
    exact InterruptFrame.load_eq hwords

/-- What the tables owe to a step. -/
def Served (addr : Label → Addr) (s : State) (event : Event) (s' : State) : Prop :=
  match event with
  | .interrupt v e => s.gdtInstalled = true → s.idtInstalled = true → v.val ≠ 255 →
      s'.lost = s.lost ∧ ArrivesAt addr s.cpu.cpu v e s'.cpu.cpu
  | .gdtInstall _ ret => s.gdtInstalled = false →
      s'.cpu.cpu.rip = ret ∧ s'.cpu.cpu.rsp = s.cpu.cpu.rsp ∧
        s'.cpu.cpu.sel .cs = kernelCs.setWidth 64 ∧ ∀ seg ≠ .cs, s'.cpu.cpu.sel seg = 0x30
  | _ => True

/-- Whatever it is entered through, the delivery writes below the stack pointer only. -/
theorem deliverThrough_outside {s : State} {v : ℕ} {errorCode : Option Word} {cpu : Cpu}
    (h : deliverThrough s v errorCode = some cpu) {x : Addr}
    (hx : Outside ((s.cpu.cpu.rsp &&& ~~~15) - 48) 48 x) : cpu.mem x = s.cpu.cpu.mem x := by
  obtain ⟨selector, offset, rfl⟩ :
      ∃ selector offset, cpu = s.cpu.cpu.deliver selector offset errorCode := by
    simp only [deliverThrough] at h
    split at h
    · split at h
      · split at h
        · split at h
          · exact ⟨_, _, (Option.some.inj h).symm⟩
          · exact absurd h.symm (Option.some_ne_none _)
        · exact absurd h.symm (Option.some_ne_none _)
      · exact absurd h.symm (Option.some_ne_none _)
    · exact absurd h.symm (Option.some_ne_none _)
  exact deliver_outside _ _ _ _ hx

/-- What an interrupt does to the machine. -/
theorem interrupt_served {s s' : State} {v : Fin 256} {e : Word} (hs : Inv L addr s)
    (h : step L s (.interrupt v e) = some s') :
    Inv L addr s' ∧ Served addr s (.interrupt v e) s' := by
  simp only [step] at h
  split at h
  · rename_i hclear
    have hthrough : s.gdtInstalled = true → s.idtInstalled = true → v.val ≠ 255 → _ :=
      fun hgdt hidt hv =>
        deliverThrough_of_loaded (hs.gdt hgdt) (hs.idt hidt) hv (pushedError v e)
    cases hdeliver : deliverThrough s v (pushedError v e) with
    | none =>
      rw [hdeliver] at h
      obtain rfl := Option.some.inj h
      refine ⟨hs.untouched (fun o ho x hx => rfl) rfl rfl rfl rfl, ?_⟩
      intro hgdt hidt hv
      exact absurd ((hthrough hgdt hidt hv).symm.trans hdeliver) (Option.some_ne_none _)
    | some cpu =>
      rw [hdeliver] at h
      obtain rfl := Option.some.inj h
      refine ⟨hs.untouched (fun o ho x hx => ?_) rfl rfl rfl rfl, ?_⟩
      · exact deliverThrough_outside hdeliver (hclear.outside ho hx)
      · intro hgdt hidt hv
        obtain rfl := Option.some.inj (hdeliver.symm.trans (hthrough hgdt hidt hv))
        exact ⟨rfl, atStub_arrives s.cpu.cpu v e⟩
  · exact absurd h.symm (Option.some_ne_none _)

theorem step_served {s s' : State} {event : Event} (hs : Inv L addr s)
    (h : step L s event = some s') : Inv L addr s' ∧ Served addr s event s' := by
  cases event with
  | gdtInstall gdtPtr ret =>
    simp only [step] at h
    split at h
    · rename_i hinstalled
      obtain rfl := Option.some.inj h
      exact ⟨hs, fun hnot => absurd (hinstalled.symm.trans hnot) Bool.true_eq_false.mp⟩
    · split at h
      · rename_i hclear
        obtain rfl := Option.some.inj h
        exact ⟨install_inv hs hclear.1 hclear.2.1 hclear.2.2,
          fun _ => callLgdt_returns gdtPtr ret _⟩
      · exact absurd h.symm (Option.some_ne_none _)
  | idtInstall idtPtr =>
    simp only [step] at h
    split at h
    · obtain rfl := Option.some.inj h
      exact ⟨hs, trivial⟩
    · split at h
      · rename_i hclear
        obtain rfl := Option.some.inj h
        exact ⟨installIdt_inv hs hclear, trivial⟩
      · exact absurd h.symm (Option.some_ne_none _)
  | other cpu =>
    simp only [step] at h
    split at h
    · rename_i huntouched
      obtain rfl := Option.some.inj h
      exact ⟨hs.untouched (fun o ho x hx => huntouched.apply ho hx) rfl rfl rfl rfl, trivial⟩
    · exact absurd h.symm (Option.some_ne_none _)
  | interrupt v e => exact interrupt_served hs h

theorem start_inv (image : Image L addr) : Inv L addr (start image) :=
  ⟨image.data, fun h => absurd h Bool.false_ne_true, fun h => absurd h Bool.false_ne_true⟩

/-- **Interrupts arrive.** In every run of installs, other code and interrupts, an interrupt taken
after both installs arrives at the stub of its vector, with interrupts off. -/
theorem interrupts_arrive (image : Image L addr) (events : List Event) :
    (machine L).Along (Served addr) (start image) events :=
  Machine.along_of_invariant (I := Inv L addr) (fun _ _ _ hs h => step_served hs h)
    (start_inv image) events

/-- Line 1 after both installs, with the registers' memory below the table of segments. -/
theorem interrupts_arrive_line : ∃ s s',
    (machine lowLayout).run (start lowImage) [.gdtInstall 0x500 0x7000, .idtInstall 0x510] =
      some s ∧
    (machine lowLayout).step s (.interrupt 33 0) = some s' ∧ s'.lost = false ∧
    ArrivesAt stubAddr s.cpu.cpu 33 0 s'.cpu.cpu := by
  have hshown : ((machine lowLayout).run (start lowImage)
      [.gdtInstall 0x500 0x7000, .idtInstall 0x510]).map
        (fun s => (s.gdtInstalled, s.idtInstalled, s.lost, s.cpu.cpu.rsp)) =
      some (true, true, false, 0x6000) := by decide
  obtain ⟨s, hrun, hs⟩ := Option.map_eq_some_iff.mp hshown
  obtain ⟨hgdt, hs⟩ := Prod.mk.inj hs
  obtain ⟨hidt, hs⟩ := Prod.mk.inj hs
  obtain ⟨hlost, hrsp⟩ := Prod.mk.inj hs
  obtain ⟨s', hstep⟩ : ∃ s', (machine lowLayout).step s (.interrupt 33 0) = some s' := by
    have hclear : lowLayout.Clear ((s.cpu.cpu.rsp &&& ~~~15) - 48) 48 := by
      rw [hrsp]
      decide
    simp only [machine, step, if_pos hclear]
    cases deliverThrough s (33 : Fin 256) (pushedError (33 : Fin 256) 0) with
    | none => exact ⟨_, rfl⟩
    | some cpu => exact ⟨_, rfl⟩
  have hall := interrupts_arrive lowImage
    ([.gdtInstall 0x500 0x7000, .idtInstall 0x510] ++ [.interrupt 33 0])
  obtain ⟨hkept, harrives⟩ := Machine.along_step hall hrun hstep hgdt hidt (by decide)
  exact ⟨s, s', hrun, hstep, hkept.trans hlost, harrives⟩

end Runs

end MegaOS.Tables
