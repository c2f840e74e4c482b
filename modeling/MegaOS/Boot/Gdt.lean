import MegaOS.Boot.CalledAssembly
import MegaOS.Foundation.Records

/-!
# The segment descriptors

`GDT::install` writes seven packed entries into the table and an operand for
`lgdt` onto the stack, and calls `asm_lgdt` with its address. From then on the
processor finds a segment by its selector in the bytes of the table, through the
descriptor table register.
-/

namespace MegaOS.Gdt

open MegaOS.Memory MegaOS.Records MegaOS.Assembly

/-! ### The code -/

/-- `GDT::gdt_entry_vec` -/
inductive EntryVec
  | nullEnt
  | cs16bit
  | ds16bit
  | cs32bit
  | ds32bit
  | cs64bit
  | ds64bit
  deriving DecidableEq

def EntryVec.index : EntryVec → ℕ
  | .nullEnt => 0
  | .cs16bit => 1
  | .ds16bit => 2
  | .cs32bit => 3
  | .ds32bit => 4
  | .cs64bit => 5
  | .ds64bit => 6

/-- `GDT::gdt_access_bits` -/
def segPresent : Byte := 1 <<< 7
def segDpl0 : Byte := (0 &&& 0b11) <<< 5
def segTypeData : Byte := 1 <<< 4
def segTypeCode : Byte := 1 <<< 4
def segExec : Byte := 1 <<< 3
def segRead : Byte := 1 <<< 1
def segWrite : Byte := 1 <<< 1

def csAccessBits : Byte := segPresent ||| segDpl0 ||| segTypeCode ||| segExec ||| segRead
def dsAccessBits : Byte := segPresent ||| segDpl0 ||| segTypeData ||| segWrite

/-- `GDT::ENTRY_COUNT` -/
def entryCount : ℕ := 7

/-- The stores of `make_entry` into a `gdt_entry`, in their order: the three parts of the base, the
limit, the access byte and the flags. -/
def entryStores (access flags : Byte) (limit : BitVec 16) : List Field :=
  [⟨2, 2, 0⟩, ⟨4, 1, 0⟩, ⟨7, 1, 0⟩, ⟨0, 2, limit⟩, ⟨5, 1, access⟩, ⟨6, 1, flags⟩]

/-- `GDT::make_entry` -/
def makeEntry (table : Addr) (m : Mem) (entryIndex : EntryVec) (access flags : Byte)
    (limit : BitVec 16) : Mem :=
  if entryCount ≤ entryIndex.index then m
  else storeAll (element table 8 entryIndex.index) m (entryStores access flags limit)

/-- A call of `make_entry`. -/
structure Entry where
  vec : EntryVec
  access : Byte
  flags : Byte
  limit : BitVec 16 := 0

/-- The calls of `GDT::install`. -/
def entries : List Entry :=
  [⟨.nullEnt, 0, 0, 0⟩,
    ⟨.cs16bit, csAccessBits, 0b00000000, 0xFFFF⟩,
    ⟨.ds16bit, dsAccessBits, 0b00000000, 0xFFFF⟩,
    ⟨.cs32bit, csAccessBits, 0b11001111, 0xFFFF⟩,
    ⟨.ds32bit, dsAccessBits, 0b11001111, 0xFFFF⟩,
    ⟨.cs64bit, csAccessBits, 0x20, 0⟩,
    ⟨.ds64bit, dsAccessBits, 0x0, 0⟩]

def makeEntries (table : Addr) (es : List Entry) (m : Mem) : Mem :=
  es.foldl (fun m e => makeEntry table m e.vec e.access e.flags e.limit) m

/-- A `gdt_register` or `idt_register`, whose fields are alike. -/
def tableRegister (size : BitVec 16) (baseAddr : Addr) : List Field :=
  [⟨0, 2, size⟩, ⟨2, 8, baseAddr⟩]

/-- A call of `asm_lgdt`, which returns to `ret`. -/
def callLgdt (descPtr ret : Addr) (s : Called.State) : Called.State :=
  Called.execAll Called.Routine.asmLgdt.code { s with
    cpu := ({ s.cpu with gpr := Function.update s.cpu.gpr .rdi descPtr } : Cpu).push ret }

/-- `GDT::install` the first time, with `gdt_ptr` at `gdtPtr`. -/
def install (table gdtPtr ret : Addr) (s : Called.State) : Called.State :=
  callLgdt gdtPtr ret { s with cpu := { s.cpu with
    mem := storeAll gdtPtr (makeEntries table entries s.cpu.mem)
      (tableRegister (7 * 8 - 1) table) } }

/-! ### What the processor decodes -/

/-- A segment descriptor. -/
structure Segment where
  base : BitVec 32
  limit : BitVec 20
  /-- The type, four bits: executable, conforming or expand-down, readable or writable, accessed. -/
  type : BitVec 4
  codeOrData : Bool
  dpl : BitVec 2
  isPresent : Bool
  long : Bool
  big : Bool
  granularity : Bool
  deriving DecidableEq

def segmentOf (descriptor : Word) : Segment :=
  let access : Byte := descriptor.extractLsb' 40 8
  let flags : Byte := descriptor.extractLsb' 48 8
  { base := (descriptor.extractLsb' 56 8 ++ descriptor.extractLsb' 32 8 : BitVec 16) ++
      descriptor.extractLsb' 16 16
    limit := flags.extractLsb' 0 4 ++ descriptor.extractLsb' 0 16
    type := access.extractLsb' 0 4
    codeOrData := access.getLsbD 4
    dpl := access.extractLsb' 5 2
    isPresent := access.getLsbD 7
    long := flags.getLsbD 5
    big := flags.getLsbD 6
    granularity := flags.getLsbD 7 }

/-- The limit and the base in a descriptor table register. -/
def registerLimit (r : BitVec 80) : ℕ := (r.extractLsb' 0 16).toNat

def registerBase (r : BitVec 80) : Addr := r.extractLsb' 16 64

/-- The descriptor of a selector: not of the local table, and within the limit. -/
def lookupSegment (m : Mem) (gdtr : BitVec 80) (selector : BitVec 16) : Option Segment :=
  let index := (selector >>> 3).toNat
  if selector.getLsbD 2 = false ∧ 8 * index + 7 ≤ registerLimit gdtr then
    some (segmentOf (m.load64 (element (registerBase gdtr) 8 index)))
  else none

/-- A segment of ring 0 with base 0. -/
def ringZero (isCode : Bool) (limit : BitVec 20) (long big granularity : Bool) : Segment where
  base := 0
  limit := limit
  type := if isCode then 0b1010 else 0b0010
  codeOrData := true
  dpl := 0
  isPresent := true
  long := long
  big := big
  granularity := granularity

/-- The segments of the boot protocol, by their index. -/
def segments : List Segment :=
  [⟨0, 0, 0, false, 0, false, false, false, false⟩,
    ringZero true 0xFFFF false false false,
    ringZero false 0xFFFF false false false,
    ringZero true 0xFFFFF false true true,
    ringZero false 0xFFFFF false true true,
    ringZero true 0 true false false,
    ringZero false 0 false false false]

/-! ### The table in memory -/

/-- The table is loaded: the register points to it, and its entries are in memory. -/
structure Loaded (table : Addr) (m : Mem) (gdtr : BitVec 80) : Prop where
  base : registerBase gdtr = table
  limit : registerLimit gdtr = 55
  stored : ∀ e ∈ entries, ∀ f ∈ entryStores e.access e.flags e.limit,
    f.Holds m (element table 8 e.vec.index)

theorem entryStores_stop (access flags : Byte) (limit : BitVec 16) :
    ∀ f ∈ entryStores access flags limit, f.stop ≤ 8 := by
  simp [entryStores, Field.stop]

theorem entryStores_pairwise (access flags : Byte) (limit : BitVec 16) :
    (entryStores access flags limit).Pairwise Field.Apart := by
  simp [entryStores, Field.Apart, Field.stop]

/-- The segment an entry makes. -/
theorem segmentOf_stored {m : Mem} {a : Addr} {access flags : Byte} {limit : BitVec 16}
    (h : ∀ f ∈ entryStores access flags limit, f.Holds m a) :
    segmentOf (m.load64 a) = ⟨0, flags.extractLsb' 0 4 ++ limit, access.extractLsb' 0 4,
      access.getLsbD 4, access.extractLsb' 5 2, access.getLsbD 7, flags.getLsbD 5,
      flags.getLsbD 6, flags.getLsbD 7⟩ := by
  have hfield : ∀ f ∈ entryStores access flags limit,
      (m.load64 a).extractLsb' (8 * f.offset) (8 * f.bytes) = f.value :=
    fun f hf => (h f hf).extract (entryStores_stop access flags limit f hf)
  simp only [entryStores, List.forall_mem_cons] at hfield
  obtain ⟨hbase1, hbase2, hbase3, hlimit, haccess, hflags, -⟩ := hfield
  have hbase1' : (m.load64 a).extractLsb' 16 16 = 0 := hbase1
  have hbase2' : (m.load64 a).extractLsb' 32 8 = 0 := hbase2
  have hbase3' : (m.load64 a).extractLsb' 56 8 = 0 := hbase3
  have hlimit' : (m.load64 a).extractLsb' 0 16 = limit := hlimit
  have haccess' : (m.load64 a).extractLsb' 40 8 = access := haccess
  have hflags' : (m.load64 a).extractLsb' 48 8 = flags := hflags
  rw [segmentOf, hbase1', hbase2', hbase3', hlimit', haccess', hflags']
  rfl

/-- Every entry's index is below the count. -/
theorem EntryVec.index_lt (v : EntryVec) : v.index < 7 := by cases v <;> decide

theorem EntryVec.index_injective {v w : EntryVec} (h : v.index = w.index) : v = w := by
  cases v <;> cases w <;> first | rfl | exact absurd h (by decide)

theorem makeEntry_eq (table : Addr) (m : Mem) (e : Entry) :
    makeEntry table m e.vec e.access e.flags e.limit =
      storeAll (element table 8 e.vec.index) m (entryStores e.access e.flags e.limit) :=
  if_neg (Nat.not_le.mpr e.vec.index_lt)

/-- `make_entry` writes within the table. -/
theorem makeEntries_outside (table x : Addr) (es : List Entry) (m : Mem)
    (hx : Outside table 56 x) : makeEntries table es m x = m x := by
  induction es generalizing m with
  | nil => rfl
  | cons e es ih =>
    refine (ih _).trans ?_
    show makeEntry table m e.vec e.access e.flags e.limit x = m x
    rw [makeEntry_eq]
    exact storeAll_outside m (entryStores_stop _ _ _) (by decide)
      (outside_element e.vec.index_lt (by decide) hx)

/-- Entries of other indices leave an entry as it was. -/
theorem makeEntries_other {table : Addr} {v : EntryVec} {es : List Entry}
    (hes : ∀ e ∈ es, e.vec ≠ v) (m : Mem) {x : Addr}
    (hx : ¬Outside (element table 8 v.index) 8 x) : makeEntries table es m x = m x := by
  induction es generalizing m with
  | nil => rfl
  | cons e es ih =>
    refine (ih (fun e' he' => hes e' (List.mem_cons_of_mem e he')) _).trans ?_
    have hne : e.vec.index ≠ v.index := fun h =>
      hes e List.mem_cons_self (EntryVec.index_injective h)
    have hapart : RangesApart (element table 8 e.vec.index) 8 (element table 8 v.index) 8 :=
      element_apart table e.vec.index_lt v.index_lt hne (by decide)
    show makeEntry table m e.vec e.access e.flags e.limit x = m x
    rw [makeEntry_eq]
    exact storeAll_outside m (entryStores_stop _ _ _) (by decide)
      ((hapart.outside x).resolve_right hx)

/-- **The entries** of calls with different indices are all in memory. -/
theorem makeEntries_stored (table : Addr) {es : List Entry}
    (hes : (es.map (·.vec)).Nodup) (m : Mem) : ∀ e ∈ es,
    ∀ f ∈ entryStores e.access e.flags e.limit,
      f.Holds (makeEntries table es m) (element table 8 e.vec.index) := by
  induction es generalizing m with
  | nil => exact fun e he => absurd he List.not_mem_nil
  | cons e es ih =>
    obtain ⟨hnew, hrest⟩ := List.nodup_cons.mp hes
    intro e' he' f hf
    rcases List.mem_cons.mp he' with rfl | he'
    · -- the calls that follow have other indices
      have hother : ∀ d ∈ es, d.vec ≠ e'.vec := fun d hd heq =>
        hnew (List.mem_map.mpr ⟨d, hd, heq⟩)
      have hstored := holds_storeAll m (element table 8 e'.vec.index)
        (entryStores_pairwise e'.access e'.flags e'.limit)
        (fun f hf => Nat.le_trans (entryStores_stop _ _ _ f hf) (by decide)) f hf
      rw [← makeEntry_eq] at hstored
      exact hstored.congr (entryStores_stop _ _ _ f hf) (by decide)
        fun x hx => makeEntries_other hother _ hx
    · exact ih hrest _ e' he' f hf

/-! ### Lookup -/

/-- **Lookup** through a loaded table finds the segments of the boot protocol, and no others. -/
theorem lookupSegment_of_loaded {table : Addr} {m : Mem} {gdtr : BitVec 80}
    (h : Loaded table m gdtr) (selector : BitVec 16) :
    lookupSegment m gdtr selector =
      if selector.getLsbD 2 then none else segments[(selector >>> 3).toNat]? := by
  rw [lookupSegment, h.base, h.limit]
  cases selector.getLsbD 2 with
  | true => rfl
  | false =>
    by_cases hindex : (selector >>> 3).toNat < 7
    · rw [if_pos ⟨rfl, by omega⟩, if_neg Bool.false_ne_true]
      have hstored : ∀ e ∈ entries, segments[e.vec.index]? =
          some (segmentOf (m.load64 (element table 8 e.vec.index))) := by
        intro e he
        rw [segmentOf_stored (h.stored e he)]
        simp only [entries, List.mem_cons, List.not_mem_nil, or_false] at he
        rcases he with rfl | rfl | rfl | rfl | rfl | rfl | rfl <;> decide
      obtain ⟨e, he, heq⟩ : ∃ e ∈ entries, e.vec.index = (selector >>> 3).toNat := by
        have hall : ∀ i < 7, ∃ e ∈ entries, e.vec.index = i := by decide
        exact hall _ hindex
      rw [← heq, hstored e he]
    · have hlen : segments.length ≤ (selector >>> 3).toNat := Nat.not_lt.mp hindex
      rw [if_neg (by omega), if_neg Bool.false_ne_true, List.getElem?_eq_none hlen]

/-- A table stays loaded as long as nobody writes to it. -/
theorem Loaded.congr {table : Addr} {m m' : Mem} {gdtr : BitVec 80} (h : Loaded table m gdtr)
    (hm : ∀ x, ¬Outside table 56 x → m' x = m x) : Loaded table m' gdtr := by
  refine ⟨h.base, h.limit, ?_⟩
  intro e he f hf
  refine (h.stored e he f hf).congr (entryStores_stop _ _ _ f hf) (by decide) ?_
  intro x hx
  exact hm x fun hout => hx (outside_element e.vec.index_lt (by decide) hout)

/-! ### `asm_lgdt` and `install` -/

/-- The bytes a call of `asm_lgdt` uses below the stack pointer. -/
def stackUse (rsp : Addr) : Addr := rsp - 16

theorem store64_outside (m : Mem) {base x : Addr} (hx : Outside base 16 x) (v : Word) {o : ℕ}
    (ho : o ≤ 8) : m.store64 (base + BitVec.ofNat 64 o) v x = m x :=
  store_outside (k := 8) m v (Nat.add_le_add_right ho 8) (by decide) hx

theorem callLgdt_mem (descPtr ret : Addr) (s : Called.State) {x : Addr}
    (hx : Outside (stackUse s.cpu.rsp) 16 x) :
    (callLgdt descPtr ret s).cpu.mem x = s.cpu.mem x := by
  have htop : s.cpu.rsp - 8 = stackUse s.cpu.rsp + BitVec.ofNat 64 8 := by
    rw [stackUse, sub_add]
    rfl
  have hback : s.cpu.rsp - 8 + 8 - 8 = stackUse s.cpu.rsp + BitVec.ofNat 64 8 := by
    rw [sub_add_cancel, htop]
  have hlow : s.cpu.rsp - 8 + 8 - 8 - 8 = stackUse s.cpu.rsp + BitVec.ofNat 64 0 := by
    rw [sub_add_cancel, sub_sub]
    exact (add_zero _).symm
  show (((s.cpu.mem.store64 (s.cpu.rsp - 8) ret).store64 (s.cpu.rsp - 8 + 8 - 8) 0x28).store64
    (s.cpu.rsp - 8 + 8 - 8 - 8) _) x = s.cpu.mem x
  rw [hlow, store64_outside _ hx _ (by decide), hback, store64_outside _ hx _ (by decide), htop,
    store64_outside _ hx _ (by decide)]

/-- `lgdt` reads the operand as it was before the call. -/
theorem callLgdt_gdtr (descPtr ret : Addr) (s : Called.State)
    (hapart : RangesApart descPtr 10 (stackUse s.cpu.rsp) 16) :
    (callLgdt descPtr ret s).gdtr = s.cpu.mem.load descPtr 10 := by
  have htop : s.cpu.rsp - 8 = stackUse s.cpu.rsp + BitVec.ofNat 64 8 := by
    rw [stackUse, sub_add]
    rfl
  have hrdi : Function.update s.cpu.gpr Reg.rdi descPtr .rdi = descPtr := Function.update_self ..
  show (s.cpu.mem.store64 (s.cpu.rsp - 8) ret).load (Function.update s.cpu.gpr .rdi descPtr .rdi)
    10 = _
  rw [hrdi]
  apply load_congr
  intro j hj
  have hin : ¬Outside descPtr 10 (descPtr + BitVec.ofNat 64 j) := by
    rw [Outside, add_sub_cancel_left, BitVec.toNat_ofNat]
    omega
  rw [htop, store64_outside _ ((hapart.outside _).resolve_left hin) _ (by decide)]

/-- It returns, with the selectors of the new table. -/
theorem callLgdt_returns (descPtr ret : Addr) (s : Called.State) :
    (callLgdt descPtr ret s).cpu.rip = ret ∧ (callLgdt descPtr ret s).cpu.rsp = s.cpu.rsp ∧
      (callLgdt descPtr ret s).cpu.sel .cs = 0x28 ∧
      ∀ seg ≠ .cs, (callLgdt descPtr ret s).cpu.sel seg = 0x30 := by
  have hneutral := Called.asmLgdt_neutral { s with
    cpu := ({ s.cpu with gpr := Function.update s.cpu.gpr .rdi descPtr } : Cpu).push ret }
  refine ⟨hneutral.rip.trans (load64_store64 s.cpu.mem (s.cpu.rsp - 8) ret), ?_, hneutral.cs,
    hneutral.data⟩
  exact hneutral.rsp.trans (sub_add_cancel s.cpu.rsp 8)

/-! ### `GDT::install` -/

theorem tableRegister_pairwise (size : BitVec 16) (baseAddr : Addr) :
    (tableRegister size baseAddr).Pairwise Field.Apart := by
  simp [tableRegister, Field.Apart, Field.stop]

theorem tableRegister_stop (size : BitVec 16) (baseAddr : Addr) :
    ∀ f ∈ tableRegister size baseAddr, f.stop ≤ 10 := by
  simp [tableRegister, Field.stop]

/-- An operand of `lgdt` or `lidt`, as the processor reads it. -/
theorem load_tableRegister (m : Mem) (ptr : Addr) (size : BitVec 16) (baseAddr : Addr) :
    registerLimit ((storeAll ptr m (tableRegister size baseAddr)).load ptr 10) = size.toNat ∧
      registerBase ((storeAll ptr m (tableRegister size baseAddr)).load ptr 10) = baseAddr := by
  have hholds := holds_storeAll m ptr (tableRegister_pairwise size baseAddr)
    fun f hf => Nat.le_trans (tableRegister_stop _ _ f hf) (by decide)
  have hfield := fun f hf => (hholds f hf).extract (tableRegister_stop size baseAddr f hf)
  simp only [tableRegister, List.forall_mem_cons] at hfield
  obtain ⟨hsize, hbase, -⟩ := hfield
  exact ⟨congrArg BitVec.toNat hsize, hbase⟩

/-- **`GDT::install`** loads its table, wherever the stack is apart from it, and changes nothing but
the table and the stack. -/
theorem install_loaded (table gdtPtr ret : Addr) (s : Called.State)
    (hstack : RangesApart gdtPtr 10 (stackUse s.cpu.rsp) 16)
    (htable : RangesApart table 56 (stackUse s.cpu.rsp) 16)
    (hptr : RangesApart table 56 gdtPtr 10) :
    Loaded table (install table gdtPtr ret s).cpu.mem (install table gdtPtr ret s).gdtr ∧
      ∀ x, Outside table 56 x → Outside gdtPtr 10 x → Outside (stackUse s.cpu.rsp) 16 x →
        (install table gdtPtr ret s).cpu.mem x = s.cpu.mem x := by
  obtain ⟨m, hm⟩ : ∃ m, m = storeAll gdtPtr (makeEntries table entries s.cpu.mem)
    (tableRegister (7 * 8 - 1) table) := ⟨_, rfl⟩
  have hinstall : install table gdtPtr ret s =
      callLgdt gdtPtr ret { s with cpu := { s.cpu with mem := m } } := by rw [hm]; rfl
  have hregister := load_tableRegister (makeEntries table entries s.cpu.mem) gdtPtr (7 * 8 - 1) table
  rw [← hm] at hregister
  have hgdtr : (install table gdtPtr ret s).gdtr = m.load gdtPtr 10 := by
    rw [hinstall]
    exact callLgdt_gdtr gdtPtr ret _ hstack
  have hmem : ∀ x, Outside (stackUse s.cpu.rsp) 16 x →
      (install table gdtPtr ret s).cpu.mem x = m x := by
    rw [hinstall]
    exact fun x hx => callLgdt_mem gdtPtr ret _ hx
  have hwritten : ∀ x, Outside gdtPtr 10 x → m x = makeEntries table entries s.cpu.mem x := by
    rw [hm]
    exact fun x hx => storeAll_outside _ (tableRegister_stop _ _) (by decide) hx
  constructor
  · rw [hgdtr]
    refine ⟨hregister.2, hregister.1, ?_⟩
    intro e he f hf
    refine (makeEntries_stored table (by decide) s.cpu.mem e he f hf).congr
      (entryStores_stop _ _ _ f hf) (by decide) ?_
    intro x hx
    have hin : ¬Outside table 56 x := fun hout =>
      hx (outside_element e.vec.index_lt (by decide) hout)
    rw [hmem x ((htable.outside x).resolve_left hin),
      hwritten x ((hptr.outside x).resolve_left hin)]
  · intro x hx hptrx hstackx
    rw [hmem x hstackx, hwritten x hptrx, makeEntries_outside table x entries _ hx]

end MegaOS.Gdt
