import MegaOS.Interrupts.Idt
import MegaOS.Foundation.Records

/-!
# The interrupt descriptor table in memory

The gates are packed entries of 16 bytes, and the install loops read the addresses
of the stubs from two arrays of the data section. `tableOf` is the table that the
bytes hold. Stores of `make_entry` update it as `make_entry` updates a table of
gates, so the bytes after the loops are a table the install can make.
-/

namespace MegaOS.IdtMemory

open MegaOS.Memory MegaOS.Records MegaOS.Interrupts

/-! ### The code -/

/-- The stores of `make_entry` into an `idt_entry`, in their order: the flags, the selector, the
stack switch, the padding and the three parts of the offset. -/
def gateStores (isr : Addr) (flags : Byte) : List Field :=
  [⟨5, 1, flags⟩, ⟨2, 2, kernelCs.setWidth 16⟩, ⟨4, 1, 0⟩, ⟨12, 4, 0⟩,
    ⟨0, 2, (isr &&& 0xFFFF).setWidth 16⟩, ⟨6, 2, ((isr >>> 16) &&& 0xFFFF).setWidth 16⟩,
    ⟨8, 4, ((isr >>> 32) &&& 0xFFFFFFFF).setWidth 32⟩]

/-- `IDT::make_entry` -/
def storeEntry (table : Addr) (m : Mem) (entryVec : ℕ) (isr : Addr) (flags : Byte) : Mem :=
  if 256 ≤ entryVec then m else storeAll (element table 16 entryVec) m (gateStores isr flags)

section Loops

variable (table : Addr) (arrays : AsmArray → Addr)

/-- One iteration of an install loop. -/
def storeGate (a : AsmArray) (index : ℕ → ℕ) (m : Mem) (vector : ℕ) : Mem :=
  storeEntry table m vector (m.load64 (element (arrays a) 8 (index vector))) typeAttr

/-- The loop over the exception vectors. -/
def storeExceptions (m : Mem) : Mem :=
  (List.range 32).foldl (storeGate table arrays .exceptionsHandlers fun vector => vector) m

/-- The loop over the interrupt vectors. -/
def storeInterrupts (m : Mem) : Mem :=
  (List.range' 32 224).foldl
    (storeGate table arrays .interruptsHandlers fun vector => vector - 32) m

def storeTable (m : Mem) : Mem := storeInterrupts table arrays (storeExceptions table arrays m)

end Loops

/-! ### What the bytes hold -/

/-- The `idt_entry` at an address. -/
def gateAt (m : Mem) (a : Addr) : IdtEntry where
  offset1 := m.load (a + BitVec.ofNat 64 0) 2
  selector := m.load (a + BitVec.ofNat 64 2) 2
  ist := m.load (a + BitVec.ofNat 64 4) 1
  flags := m.load (a + BitVec.ofNat 64 5) 1
  offset2 := m.load (a + BitVec.ofNat 64 6) 2
  offset3 := m.load (a + BitVec.ofNat 64 8) 4
  zero := m.load (a + BitVec.ofNat 64 12) 4

def tableOf (m : Mem) (table : Addr) : IdtTable := fun v => gateAt m (element table 16 v)

/-- The arrays of the data section hold the addresses the assembly emits. -/
def DataSection (addr : Label → Addr) (arrays : AsmArray → Addr) (m : Mem) : Prop :=
  ∀ a i l, a.emitted[i]? = some l → m.load64 (element (arrays a) 8 i) = addr l

theorem gateStores_stop (isr : Addr) (flags : Byte) : ∀ f ∈ gateStores isr flags, f.stop ≤ 16 := by
  simp [gateStores, Field.stop]

theorem gateStores_pairwise (isr : Addr) (flags : Byte) :
    (gateStores isr flags).Pairwise Field.Apart := by
  simp [gateStores, Field.Apart, Field.stop]

/-- The gate an entry makes. -/
theorem gateAt_stored (m : Mem) (a isr : Addr) (flags : Byte) :
    gateAt (storeAll a m (gateStores isr flags)) a =
      { offset1 := (isr &&& 0xFFFF).setWidth 16
        selector := kernelCs.setWidth 16
        ist := 0
        flags := flags
        offset2 := ((isr >>> 16) &&& 0xFFFF).setWidth 16
        offset3 := ((isr >>> 32) &&& 0xFFFFFFFF).setWidth 32
        zero := 0 } := by
  have hholds := holds_storeAll m a (gateStores_pairwise isr flags)
    fun f hf => Nat.le_trans (gateStores_stop isr flags f hf) (by decide)
  obtain ⟨m', hm'⟩ : ∃ m', m' = storeAll a m (gateStores isr flags) := ⟨_, rfl⟩
  rw [← hm'] at hholds ⊢
  simp only [gateStores, List.forall_mem_cons] at hholds
  obtain ⟨hflags, hselector, hist, hzero, h1, h2, h3, -⟩ := hholds
  simp only [Field.Holds] at hflags hselector hist hzero h1 h2 h3
  rw [gateAt, hflags, hselector, hist, hzero, h1, h2, h3]

/-- A load within a range depends on the bytes of the range. -/
theorem load_congr_within {m m' : Mem} {a : Addr} {n o k : ℕ} (hk : o + k ≤ n) (hn : n ≤ 2 ^ 64)
    (h : ∀ x, ¬Outside a n x → m' x = m x) :
    m'.load (a + BitVec.ofNat 64 o) k = m.load (a + BitVec.ofNat 64 o) k := by
  have hfield : Field.Holds m a ⟨o, k, m.load (a + BitVec.ofNat 64 o) k⟩ := rfl
  exact hfield.congr hk hn h

theorem gateAt_congr {m m' : Mem} {a : Addr} (h : ∀ x, ¬Outside a 16 x → m' x = m x) :
    gateAt m' a = gateAt m a := by
  have hload : ∀ o k, o + k ≤ 16 →
      m'.load (a + BitVec.ofNat 64 o) k = m.load (a + BitVec.ofNat 64 o) k :=
    fun o k hk => load_congr_within hk (by decide) h
  rw [gateAt, hload 0 2 (by decide), hload 2 2 (by decide), hload 4 1 (by decide),
    hload 5 1 (by decide), hload 6 2 (by decide), hload 8 4 (by decide), hload 12 4 (by decide)]
  rfl

/-! ### `make_entry` -/

theorem storeEntry_of_lt (table : Addr) (m : Mem) {entryVec : ℕ} (hv : entryVec < 256) (isr : Addr)
    (flags : Byte) : storeEntry table m entryVec isr flags =
      storeAll (element table 16 entryVec) m (gateStores isr flags) :=
  if_neg (Nat.not_le.mpr hv)

theorem storeEntry_outside (table x : Addr) (m : Mem) (entryVec : ℕ) (isr : Addr) (flags : Byte)
    (hx : Outside table 4096 x) : storeEntry table m entryVec isr flags x = m x := by
  rcases Nat.lt_or_ge entryVec 256 with hv | hv
  · rw [storeEntry_of_lt table m hv]
    exact storeAll_outside m (gateStores_stop isr flags) (by decide)
      (outside_element hv (by decide) hx)
  · rw [storeEntry, if_pos hv]

/-- **The stores of `make_entry`** do to the bytes what `make_entry` does to the table. -/
theorem tableOf_storeEntry (table : Addr) (m : Mem) (entryVec : ℕ) (isr : Addr) (flags : Byte) :
    tableOf (storeEntry table m entryVec isr flags) table =
      makeEntry (tableOf m table) entryVec isr flags := by
  rcases Nat.lt_or_ge entryVec 256 with hv | hv
  · rw [storeEntry_of_lt table m hv, makeEntry, dif_pos hv]
    funext v
    by_cases hne : v = ⟨entryVec, hv⟩
    · subst hne
      rw [Function.update_self]
      exact gateAt_stored m _ isr flags
    · rw [Function.update_of_ne hne]
      have hidx : entryVec ≠ v.val := fun h => hne (Fin.ext h.symm)
      have hapart : RangesApart (element table 16 entryVec) 16 (element table 16 v) 16 :=
        element_apart table hv v.isLt hidx (by decide)
      refine gateAt_congr fun x hx => ?_
      exact storeAll_outside m (gateStores_stop isr flags) (by decide)
        ((hapart.outside x).resolve_right hx)
  · rw [storeEntry, if_pos hv, makeEntry, dif_neg (Nat.not_lt.mpr hv)]

/-! ### The loops -/

section Refinement

variable {table : Addr} {arrays : AsmArray → Addr}

theorem storeLoop_outside (a : AsmArray) (index : ℕ → ℕ) (vs : List ℕ) (m : Mem) {x : Addr}
    (hx : Outside table 4096 x) : vs.foldl (storeGate table arrays a index) m x = m x := by
  induction vs generalizing m with
  | nil => rfl
  | cons v vs ih =>
    exact (ih (storeGate table arrays a index m v)).trans (storeEntry_outside table x m v _ _ hx)

theorem storeTable_outside (m : Mem) {x : Addr} (hx : Outside table 4096 x) :
    storeTable table arrays m x = m x :=
  (storeLoop_outside _ _ _ _ hx).trans (storeLoop_outside _ _ _ _ hx)

variable {addr : Label → Addr}

theorem emitted_length_le (a : AsmArray) : a.emitted.length ≤ 223 := by
  cases a <;> simp [AsmArray.emitted]

/-- The data section lies apart from what changes. -/
theorem DataSection.congr {m m' : Mem} (h : DataSection addr arrays m)
    (hm : ∀ a x, ¬Outside (arrays a) (8 * a.emitted.length) x → m' x = m x) :
    DataSection addr arrays m' := by
  intro a i l hl
  have hi : i < a.emitted.length := (List.getElem?_eq_some_iff.mp hl).1
  have hlen := emitted_length_le a
  refine Eq.trans ?_ (h a i l hl)
  exact load_congr_within (by omega) (by omega) (hm a)

variable (hapart : ∀ a : AsmArray, RangesApart table 4096 (arrays a) (8 * a.emitted.length))

include hapart

theorem DataSection.storeLoop {m : Mem} (h : DataSection addr arrays m) (a : AsmArray)
    (index : ℕ → ℕ) (vs : List ℕ) :
    DataSection addr arrays (vs.foldl (storeGate table arrays a index) m) :=
  h.congr fun b x hx =>
    storeLoop_outside a index vs m (((hapart b).outside x).resolve_right hx)

/-- **Loop.** As long as it reads what the assembly emitted, a loop over the bytes does what the
loop over the table does. -/
theorem tableOf_storeLoop (beyond : AsmArray → ℕ → Word) {a : AsmArray} {index : ℕ → ℕ}
    {vs : List ℕ} (hvs : ∀ v ∈ vs, index v < a.emitted.length) {m : Mem} {s : IdtState}
    (hdata : DataSection addr arrays m) (hs : tableOf m table = s.table) :
    tableOf (vs.foldl (storeGate table arrays a index) m) table =
      (vs.foldl (installGate addr beyond a index) s).table := by
  induction vs generalizing m s with
  | nil => exact hs
  | cons v vs ih =>
    have hindex : index v < a.emitted.length := hvs v List.mem_cons_self
    have hread : m.load64 (element (arrays a) 8 (index v)) = a.read addr beyond (index v) := by
      rw [AsmArray.read, List.getElem?_eq_getElem hindex]
      exact hdata a (index v) _ (List.getElem?_eq_getElem hindex)
    have hone : tableOf (storeGate table arrays a index m v) table =
        (installGate addr beyond a index s v).table := by
      rw [storeGate, tableOf_storeEntry, hs, hread]
      rfl
    exact ih (fun w hw => hvs w (List.mem_cons_of_mem v hw)) (hdata.storeLoop hapart a index [v])
      hone

/-- **The install over the bytes refines the install over the table**, for some words beyond the
arrays: the loops read a single one, the address for vector 255. -/
theorem storeTable_refines {m : Mem} (hdata : DataSection addr arrays m) : ∃ beyond,
    tableOf (storeTable table arrays m) table =
      (idtInstall addr beyond ⟨tableOf m table, false, []⟩).table := by
  obtain ⟨m₁, hm₁⟩ : ∃ m₁, m₁ = storeExceptions table arrays m := ⟨_, rfl⟩
  obtain ⟨m₂, hm₂⟩ : ∃ m₂, m₂ = (List.range' 32 223).foldl
    (storeGate table arrays .interruptsHandlers fun vector => vector - 32) m₁ := ⟨_, rfl⟩
  -- the word read last
  obtain ⟨beyond, hbeyond⟩ : ∃ beyond : AsmArray → ℕ → Word,
    ∀ a i, beyond a i = m₂.load64 (element (arrays a) 8 i) := ⟨_, fun _ _ => rfl⟩
  refine ⟨beyond, ?_⟩
  have hdata₁ : DataSection addr arrays m₁ := by
    rw [hm₁]
    exact hdata.storeLoop hapart _ _ _
  have hexceptions : tableOf m₁ table =
      (installExceptions addr beyond ⟨tableOf m table, false, []⟩).table := by
    rw [hm₁]
    refine tableOf_storeLoop hapart beyond ?_ hdata rfl
    intro v hv
    exact List.mem_range.mp hv
  have hinterrupts : tableOf m₂ table = ((List.range' 32 223).foldl
      (installGate addr beyond .interruptsHandlers fun vector => vector - 32)
      (installExceptions addr beyond ⟨tableOf m table, false, []⟩)).table := by
    rw [hm₂]
    refine tableOf_storeLoop hapart beyond ?_ hdata₁ hexceptions
    intro v hv
    have hlen : AsmArray.interruptsHandlers.emitted.length = 223 := List.length_map ..
    rw [List.mem_range'_1] at hv
    omega
  have hsplit : List.range' 32 224 = List.range' 32 223 ++ [255] := List.range'_concat ..
  have hstore : storeTable table arrays m =
      storeGate table arrays .interruptsHandlers (fun vector => vector - 32) m₂ 255 := by
    rw [storeTable, storeInterrupts, hsplit, List.foldl_append, ← hm₁, ← hm₂, List.foldl_cons,
      List.foldl_nil]
  have hlast : AsmArray.interruptsHandlers.read addr beyond (255 - 32) =
      m₂.load64 (element (arrays .interruptsHandlers) 8 (255 - 32)) := by
    have hnone : AsmArray.interruptsHandlers.emitted[255 - 32]? = none :=
      List.getElem?_eq_none (emitted_length_le _)
    rw [AsmArray.read, hnone]
    exact hbeyond _ _
  have hinstall : (idtInstall addr beyond ⟨tableOf m table, false, []⟩).table =
      (installInterrupts addr beyond
        (installExceptions addr beyond ⟨tableOf m table, false, []⟩)).table := by
    simp [idtInstall]
  rw [hinstall, hstore, installInterrupts, hsplit, List.foldl_append, storeGate,
    tableOf_storeEntry, hinterrupts, ← hlast, List.foldl_cons, List.foldl_nil, installGate]

/-- After the install the bytes hold a gate to the stub of every vector below 255. -/
theorem storeTable_gateTo {m : Mem} (hdata : DataSection addr arrays m) (v : Fin 256)
    (hv : v.val ≠ 255) : GateTo (tableOf (storeTable table arrays m) table v)
      (addr (stubOf v)) := by
  obtain ⟨beyond, hrefines⟩ := storeTable_refines hapart hdata
  rw [hrefines, ← read_sourceOf addr beyond v (by omega)]
  exact idtInstall_gateTo addr beyond _ rfl v

end Refinement

end MegaOS.IdtMemory
