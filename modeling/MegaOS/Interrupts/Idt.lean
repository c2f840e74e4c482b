import MegaOS.Interrupts.Isr

/-!
# The interrupt descriptor table

`IDT::install` fills 256 gates from two address arrays the assembly emits. The
arrays are read without a bound check, so a read past the last emitted address
yields whatever word follows the array in the data section. Every read of the
two loops is recorded.

The install loops run over 32 and 224 vectors; the `%rep` blocks emit 32 and 223
addresses. Vector 255 is the one that falls between them.
-/

namespace MegaOS.Interrupts

open MegaOS.Memory

/-! ### The address arrays of the data section -/

inductive AsmArray
  | exceptionsHandlers
  | interruptsHandlers
  deriving DecidableEq, Repr

/-- The labels whose addresses the `%rep` block of an array emits. -/
def AsmArray.emitted : AsmArray → List Label
  | .exceptionsHandlers => (List.range 32).map .exceptionHandler
  | .interruptsHandlers => (List.range' 32 223).map .interruptHandler

/-- What an array lookup finds: an emitted address, or the word `beyond` the array. -/
def AsmArray.read (addr : Label → Addr) (beyond : AsmArray → ℕ → Word) (a : AsmArray) (i : ℕ) :
    Addr :=
  match a.emitted[i]? with
  | some l => addr l
  | none => beyond a i

/-! ### Gates -/

/-- `IDT::idt_entry`, in field order. -/
structure IdtEntry where
  offset1 : BitVec 16
  selector : BitVec 16
  ist : BitVec 8
  flags : BitVec 8
  offset2 : BitVec 16
  offset3 : BitVec 32
  zero : BitVec 32
  deriving DecidableEq, Repr

/-- `IDT::type_attribute` and `IDT::gate_type`. -/
def present : BitVec 8 := 1 <<< 7
def dpl0 : BitVec 8 := (0 &&& 0b11) <<< 5
def intr32 : BitVec 8 := 0b1110

/-- `GDT::get_selector` of an entry index: eight bytes an entry. -/
def gdtSelector (vec : BitVec 8) : BitVec 8 := vec * 8

/-- `GDT::kernel_cs`, the selector of the 64-bit code segment, entry 5. -/
def kernelCs : BitVec 8 := gdtSelector 5

abbrev IdtTable := Fin 256 → IdtEntry

/-- `IDT::make_entry`. -/
def makeEntry (table : IdtTable) (entryVec : ℕ) (isr : Addr) (flags : BitVec 8) : IdtTable :=
  if h : entryVec < 256 then
    Function.update table ⟨entryVec, h⟩
      { offset1 := (isr &&& 0xFFFF).setWidth 16
        selector := kernelCs.setWidth 16
        ist := 0
        flags := flags
        offset2 := ((isr >>> 16) &&& 0xFFFF).setWidth 16
        offset3 := ((isr >>> 32) &&& 0xFFFFFFFF).setWidth 32
        zero := 0 }
  else table

/-- A read of an address array by an install loop, with the vector of the iteration. -/
structure ArrayRead where
  vector : ℕ
  array : AsmArray
  index : ℕ
  deriving DecidableEq, Repr

/-- The element read was emitted by the assembly. -/
def ArrayRead.Emitted (r : ArrayRead) : Prop := r.index < r.array.emitted.length

/-- The static members of `IDT`, and the reads of the address arrays made so far. -/
structure IdtState where
  table : IdtTable
  installed : Bool
  reads : List ArrayRead

/-- `PRESENT | DPL0 | gate_type::intr32`. -/
def typeAttr : BitVec 8 := present ||| dpl0 ||| intr32

/-- One iteration of an install loop: gate `vector` from `array[index]`. -/
def installGate (addr : Label → Addr) (beyond : AsmArray → ℕ → Word) (a : AsmArray)
    (index : ℕ → ℕ) (s : IdtState) (vector : ℕ) : IdtState :=
  { s with
    table := makeEntry s.table vector (a.read addr beyond (index vector)) typeAttr
    reads := s.reads ++ [⟨vector, a, index vector⟩] }

/-- The loop over the exception vectors. -/
def installExceptions (addr : Label → Addr) (beyond : AsmArray → ℕ → Word) (s : IdtState) :
    IdtState :=
  (List.range 32).foldl (installGate addr beyond .exceptionsHandlers fun vector => vector) s

/-- The loop over the interrupt vectors. -/
def installInterrupts (addr : Label → Addr) (beyond : AsmArray → ℕ → Word) (s : IdtState) :
    IdtState :=
  (List.range' 32 224).foldl
    (installGate addr beyond .interruptsHandlers fun vector => vector - 32) s

/-- `IDT::install`, as far as the table goes. -/
def idtInstall (addr : Label → Addr) (beyond : AsmArray → ℕ → Word) (s : IdtState) : IdtState :=
  if s.installed then s
  else { installInterrupts addr beyond (installExceptions addr beyond s) with installed := true }

/-! ### What the processor decodes -/

/-- The offset of a gate, put together from its three fields. -/
def IdtEntry.offset (g : IdtEntry) : Addr :=
  g.offset1.setWidth 64 ||| (g.offset2.setWidth 64 <<< 16) ||| (g.offset3.setWidth 64 <<< 32)

/-- A present DPL 0 interrupt gate to `target` through the kernel's code selector, without a
stack switch. -/
structure GateTo (g : IdtEntry) (target : Addr) : Prop where
  isPresent : g.flags.getLsbD 7 = true
  dpl : (g.flags >>> 5) &&& 0b11 = 0
  gateType : g.flags &&& 0b11111 = intr32
  selector : g.selector = kernelCs.setWidth 16
  ist : g.ist = 0
  offset : g.offset = target

theorem setWidth_and_mask (x : Word) (n : ℕ) (hn : n ≤ 64) :
    (x &&& BitVec.ofNat 64 (2 ^ n - 1)).setWidth n = x.setWidth n := by
  apply BitVec.eq_of_toNat_eq
  have hlt : 2 ^ n - 1 < 2 ^ 64 := by
    have := Nat.pow_le_pow_right (n := 2) (by decide) hn
    omega
  rw [BitVec.toNat_setWidth, BitVec.toNat_setWidth, BitVec.toNat_and, BitVec.toNat_ofNat,
    Nat.mod_eq_of_lt hlt, Nat.and_two_pow_sub_one_eq_mod, Nat.mod_mod]

/-- The three offset fields lose nothing of the address. -/
theorem offset_split (x : Addr) :
    (x.setWidth 16).setWidth 64 ||| (((x >>> 16).setWidth 16).setWidth 64 <<< 16) |||
      (((x >>> 32).setWidth 32).setWidth 64 <<< 32) = x := by
  apply BitVec.eq_of_getLsbD_eq
  intro i hi
  simp only [BitVec.getLsbD_or, BitVec.getLsbD_setWidth, BitVec.getLsbD_shiftLeft,
    BitVec.getLsbD_ushiftRight]
  rcases Nat.lt_or_ge i 16 with h16 | h16
  · simp [show i < 64 by omega, h16, show i < 32 by omega]
  · rcases Nat.lt_or_ge i 32 with h32 | h32
    · simp [show i < 64 by omega, show ¬i < 16 by omega, h32, show i - 16 < 16 by omega,
        show 16 + (i - 16) = i by omega, show i - 16 < 64 by omega]
    · simp [show i < 64 by omega, show ¬i < 16 by omega, show ¬i < 32 by omega,
        show ¬i - 16 < 16 by omega, show i - 32 < 32 by omega, show 32 + (i - 32) = i by omega,
        show i - 32 < 64 by omega]

/-- **Gate.** `make_entry` with the install attributes makes a gate to the given address. -/
theorem makeEntry_gateTo (table : IdtTable) (v : Fin 256) (isr : Addr) :
    GateTo (makeEntry table v isr typeAttr v) isr := by
  have hgate : makeEntry table v isr typeAttr v =
      { offset1 := (isr &&& 0xFFFF).setWidth 16
        selector := kernelCs.setWidth 16
        ist := 0
        flags := typeAttr
        offset2 := ((isr >>> 16) &&& 0xFFFF).setWidth 16
        offset3 := ((isr >>> 32) &&& 0xFFFFFFFF).setWidth 32
        zero := 0 } := by
    simp only [makeEntry, dif_pos v.isLt, Fin.eta, Function.update_self]
  rw [hgate]
  have hpresent : typeAttr.getLsbD 7 = true := by decide
  have hdpl : (typeAttr >>> 5) &&& 0b11 = 0 := by decide
  have htype : typeAttr &&& 0b11111 = intr32 := by decide
  have h1 : (isr &&& 0xFFFF).setWidth 16 = isr.setWidth 16 := setWidth_and_mask isr 16 (by decide)
  have h2 : ((isr >>> 16) &&& 0xFFFF).setWidth 16 = (isr >>> 16).setWidth 16 :=
    setWidth_and_mask (isr >>> 16) 16 (by decide)
  have h3 : ((isr >>> 32) &&& 0xFFFFFFFF).setWidth 32 = (isr >>> 32).setWidth 32 :=
    setWidth_and_mask (isr >>> 32) 32 (by decide)
  refine ⟨hpresent, hdpl, htype, rfl, rfl, ?_⟩
  simp only [IdtEntry.offset, h1, h2, h3]
  exact offset_split isr

theorem makeEntry_of_ne (table : IdtTable) (entryVec : ℕ) (v : Fin 256) (isr : Addr)
    (flags : BitVec 8) (h : v.val ≠ entryVec) : makeEntry table entryVec isr flags v = table v := by
  unfold makeEntry
  split
  · exact Function.update_of_ne (fun he => h (congrArg Fin.val he)) _ _
  · rfl

/-! ### The install loops -/

section Loops

variable (addr : Label → Addr) (beyond : AsmArray → ℕ → Word) (a : AsmArray) (index : ℕ → ℕ)

/-- A loop reads its array once for every vector, in order. -/
theorem installLoop_reads (vs : List ℕ) (s : IdtState) :
    (vs.foldl (installGate addr beyond a index) s).reads =
      s.reads ++ vs.map fun v => ⟨v, a, index v⟩ := by
  induction vs generalizing s with
  | nil => simp
  | cons v vs ih =>
    rw [List.foldl_cons, ih (installGate addr beyond a index s v)]
    simp [installGate]

theorem installLoop_other (vs : List ℕ) (s : IdtState) (v : Fin 256) (h : v.val ∉ vs) :
    (vs.foldl (installGate addr beyond a index) s).table v = s.table v := by
  induction vs generalizing s with
  | nil => rfl
  | cons w vs ih =>
    rw [List.foldl_cons, ih (installGate addr beyond a index s w)
      (fun hm => h (List.mem_cons_of_mem w hm))]
    exact makeEntry_of_ne _ _ _ _ _ (fun he => h (he ▸ List.mem_cons_self))

/-- **Loop.** After a loop without repetitions, each of its gates leads where the array says. -/
theorem installLoop_gateTo (vs : List ℕ) (hnodup : vs.Nodup) (s : IdtState) (v : Fin 256)
    (h : v.val ∈ vs) :
    GateTo ((vs.foldl (installGate addr beyond a index) s).table v)
      (a.read addr beyond (index v)) := by
  induction vs generalizing s with
  | nil => simp at h
  | cons w vs ih =>
    obtain ⟨hw, hvs⟩ := List.nodup_cons.mp hnodup
    rw [List.foldl_cons]
    by_cases hv : v.val ∈ vs
    · exact ih hvs (installGate addr beyond a index s w) hv
    · have hvw : v.val = w := (List.mem_cons.mp h).resolve_right hv
      rw [installLoop_other addr beyond a index vs _ v hv]
      subst hvw
      exact makeEntry_gateTo _ v _

end Loops

/-! ### The installed table -/

/-- The read a vector's gate is made from. -/
def sourceOf (v : ℕ) : ArrayRead :=
  if v < 32 then ⟨v, .exceptionsHandlers, v⟩ else ⟨v, .interruptsHandlers, v - 32⟩

theorem sourceOf_vector (v : ℕ) : (sourceOf v).vector = v := by
  unfold sourceOf
  split <;> rfl

/-- The first install makes every gate from the element its loop reads. -/
theorem idtInstall_gateTo (addr : Label → Addr) (beyond : AsmArray → ℕ → Word) (s : IdtState)
    (hs : s.installed = false) (v : Fin 256) :
    GateTo ((idtInstall addr beyond s).table v)
      ((sourceOf v).array.read addr beyond (sourceOf v).index) := by
  have htable : (idtInstall addr beyond s).table v =
      (installInterrupts addr beyond (installExceptions addr beyond s)).table v := by
    simp [idtInstall, hs]
  rw [htable]
  by_cases hv : v.val < 32
  · have hout : v.val ∉ List.range' 32 224 := by
      simp only [List.mem_range'_1]
      omega
    rw [installInterrupts, installLoop_other _ _ _ _ _ _ v hout, sourceOf, if_pos hv]
    exact installLoop_gateTo addr beyond .exceptionsHandlers (fun vector => vector) (List.range 32)
      List.nodup_range s v (List.mem_range.mpr hv)
  · have hin : v.val ∈ List.range' 32 224 := by
      simp only [List.mem_range'_1]
      omega
    rw [sourceOf, if_neg hv]
    exact installLoop_gateTo addr beyond .interruptsHandlers (fun vector => vector - 32)
      (List.range' 32 224) List.nodup_range' _ v hin

/-- The reads of the first install: one for each vector. -/
theorem idtInstall_reads (addr : Label → Addr) (beyond : AsmArray → ℕ → Word) (s : IdtState)
    (hs : s.installed = false) :
    (idtInstall addr beyond s).reads = s.reads ++ (List.range 256).map sourceOf := by
  have hreads : (idtInstall addr beyond s).reads =
      (installInterrupts addr beyond (installExceptions addr beyond s)).reads := by
    simp [idtInstall, hs]
  have hsplit : List.range 256 = List.range 32 ++ List.range' 32 224 := by
    rw [List.range_eq_range', List.range_eq_range', List.range'_append]
  have hexc : (List.range 32).map sourceOf =
      (List.range 32).map fun v => ⟨v, .exceptionsHandlers, v⟩ := by
    apply List.map_congr_left
    intro v hv
    rw [sourceOf, if_pos (List.mem_range.mp hv)]
  have hint : (List.range' 32 224).map sourceOf =
      (List.range' 32 224).map fun v => ⟨v, .interruptsHandlers, v - 32⟩ := by
    apply List.map_congr_left
    intro v hv
    have hge : ¬v < 32 := by
      simp only [List.mem_range'_1] at hv
      omega
    rw [sourceOf, if_neg hge]
  rw [hreads, installInterrupts, installLoop_reads, installExceptions, installLoop_reads,
    List.append_assoc, hsplit, List.map_append, hexc, hint]

theorem read_sourceOf (addr : Label → Addr) (beyond : AsmArray → ℕ → Word) (v : ℕ) (hv : v < 255) :
    (sourceOf v).array.read addr beyond (sourceOf v).index = addr (stubOf v) := by
  unfold sourceOf stubOf AsmArray.read
  by_cases h : v < 32
  · simp [h, AsmArray.emitted]
  · simp [h, AsmArray.emitted, show v - 32 < 223 by omega, show 32 + (v - 32) = v by omega]

/-- Exactly one of the 256 elements the loops read does not exist. -/
theorem emitted_sourceOf_iff (v : ℕ) (hv : v < 256) : (sourceOf v).Emitted ↔ v ≠ 255 := by
  unfold ArrayRead.Emitted sourceOf
  by_cases h : v < 32
  · simp [h, AsmArray.emitted]
    omega
  · simp [h, AsmArray.emitted]
    omega

/-- What the first install owes a vector: a gate to the stub of that vector, made from array
elements the assembly emitted. -/
def VectorInstalled (addr : Label → Addr) (s : IdtState) (v : Fin 256) : Prop :=
  GateTo (s.table v) (addr (stubOf v)) ∧ ∀ r ∈ s.reads, r.vector = v → r.Emitted

/-- **Completeness of the table, vector by vector.** Whatever the addresses of the stubs, the prior
table and the words beyond the arrays, the first install serves every vector but 255, whose address
is read past the end of its array. -/
theorem vectorInstalled_iff (addr : Label → Addr) (beyond : AsmArray → ℕ → Word)
    (table : IdtTable) (v : Fin 256) :
    VectorInstalled addr (idtInstall addr beyond ⟨table, false, []⟩) v ↔ v.val ≠ 255 := by
  have hreads := idtInstall_reads addr beyond ⟨table, false, []⟩ rfl
  have hgate := idtInstall_gateTo addr beyond ⟨table, false, []⟩ rfl v
  rw [List.nil_append] at hreads
  unfold VectorInstalled
  rw [hreads]
  constructor
  · rintro ⟨-, hem⟩
    rw [← emitted_sourceOf_iff v v.isLt]
    exact hem _ (List.mem_map_of_mem (List.mem_range.mpr v.isLt)) (sourceOf_vector v)
  · intro hne
    refine ⟨?_, ?_⟩
    · rw [← read_sourceOf addr beyond v (by omega)]
      exact hgate
    · intro r hr hrv
      obtain ⟨w, hw, rfl⟩ := List.mem_map.mp hr
      rw [sourceOf_vector] at hrv
      rw [emitted_sourceOf_iff w (List.mem_range.mp hw), hrv]
      exact hne

/-- With every stub at one address, an empty table before and zeros after the arrays, the install
does not serve every vector. -/
theorem not_all_vectorInstalled :
    ¬∀ v, VectorInstalled (fun _ => 0x1000)
      (idtInstall (fun _ => 0x1000) (fun _ _ => 0) ⟨fun _ => ⟨0, 0, 0, 0, 0, 0, 0⟩, false, []⟩) v := by
  intro h
  obtain ⟨-, hem⟩ := h 255
  rw [idtInstall_reads _ _ _ rfl, List.nil_append] at hem
  have hread := hem (sourceOf 255) (List.mem_map_of_mem (List.mem_range.mpr (by decide))) rfl
  exact (emitted_sourceOf_iff 255 (by decide)).mp hread rfl

end MegaOS.Interrupts
