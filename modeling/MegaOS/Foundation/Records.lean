import MegaOS.Foundation.Memory

/-!
# Packed records in byte memory

A record is a list of fields, each at an offset from the record's base. Storing
fields that do not overlap leaves every one of them in memory, in whatever order
they are stored, and touches nothing outside the record. Reading the record as one
number yields its fields at their places.
-/

namespace MegaOS.Records

open MegaOS.Memory

/-- The byte at `x` is not among the `n` bytes from `a` upwards. -/
def Outside (a : Addr) (n : ℕ) (x : Addr) : Prop := n ≤ (x - a).toNat

instance (a : Addr) (n : ℕ) (x : Addr) : Decidable (Outside a n x) :=
  inferInstanceAs (Decidable (_ ≤ _))

/-- Neither range starts within the other. -/
def RangesApart (a : Addr) (n : ℕ) (b : Addr) (k : ℕ) : Prop := Outside a n b ∧ Outside b k a

instance (a : Addr) (n : ℕ) (b : Addr) (k : ℕ) : Decidable (RangesApart a n b k) :=
  inferInstanceAs (Decidable (_ ∧ _))

theorem RangesApart.symm {a b : Addr} {n k : ℕ} (h : RangesApart a n b k) : RangesApart b k a n :=
  ⟨h.2, h.1⟩

/-- No byte is in both ranges. -/
theorem RangesApart.outside {a b : Addr} {n k : ℕ} (h : RangesApart a n b k) (x : Addr) :
    Outside a n x ∨ Outside b k x := by
  obtain ⟨hb, ha⟩ := h
  simp only [Outside, BitVec.toNat_sub] at *
  have hxlt := x.isLt
  have halt := a.isLt
  have hblt := b.isLt
  omega

structure Field where
  offset : ℕ
  bytes : ℕ
  value : BitVec (8 * bytes)

/-- The offset behind the field. -/
def Field.stop (f : Field) : ℕ := f.offset + f.bytes

def Field.Apart (f g : Field) : Prop := f.stop ≤ g.offset ∨ g.stop ≤ f.offset

instance (f g : Field) : Decidable (f.Apart g) := inferInstanceAs (Decidable (_ ∨ _))

def Field.store (base : Addr) (m : Mem) (f : Field) : Mem :=
  m.store (base + BitVec.ofNat 64 f.offset) f.bytes f.value

/-- The field is in memory. -/
def Field.Holds (m : Mem) (base : Addr) (f : Field) : Prop :=
  m.load (base + BitVec.ofNat 64 f.offset) f.bytes = f.value

/-- Stores in turn. -/
def storeAll (base : Addr) (m : Mem) (fs : List Field) : Mem := fs.foldl (Field.store base) m

/-! ### One field -/

/-- The distance of a byte of the record from an offset. -/
theorem toNat_sub_offset (base : Addr) {i o : ℕ} (hi : i < 2 ^ 64) (ho : o ≤ 2 ^ 64) :
    (base + BitVec.ofNat 64 i - (base + BitVec.ofNat 64 o)).toNat =
      if o ≤ i then i - o else 2 ^ 64 + i - o := by
  rw [add_sub_add_left_eq_sub, BitVec.toNat_sub, BitVec.toNat_ofNat, BitVec.toNat_ofNat,
    Nat.mod_eq_of_lt hi]
  split <;> omega

theorem Field.store_apply (m : Mem) (base : Addr) {f g : Field} (h : f.Apart g)
    (hf : f.stop ≤ 2 ^ 64) (hg : g.stop ≤ 2 ^ 64) {j : ℕ} (hj : j < g.bytes) :
    f.store base m (base + BitVec.ofNat 64 (g.offset + j)) =
      m (base + BitVec.ofNat 64 (g.offset + j)) := by
  apply store_apply_of_le
  simp only [Field.stop, Field.Apart] at h hf hg
  rw [toNat_sub_offset base (by omega) (by omega)]
  split <;> omega

/-- A store leaves the fields apart from it. -/
theorem Field.Holds.store {m : Mem} {base : Addr} {f g : Field} (hold : g.Holds m base)
    (h : f.Apart g) (hf : f.stop ≤ 2 ^ 64) (hg : g.stop ≤ 2 ^ 64) :
    g.Holds (f.store base m) base := by
  refine (load_congr ?_).trans hold
  intro j hj
  rw [add_assoc, ← BitVec.ofNat_add]
  exact Field.store_apply m base h hf hg hj

theorem Field.holds_store (m : Mem) (base : Addr) {f : Field} (hf : f.stop ≤ 2 ^ 64) :
    f.Holds (f.store base m) base :=
  load_store_self m _ f.bytes f.value (by simp only [Field.stop] at hf; omega)

/-- A store within a range leaves the bytes outside. -/
theorem store_outside (m : Mem) {base x : Addr} {n o k : ℕ} (v : BitVec (8 * k)) (hk : o + k ≤ n)
    (hn : n ≤ 2 ^ 64) (hx : Outside base n x) : m.store (base + BitVec.ofNat 64 o) k v x = m x := by
  apply store_apply_of_le
  have hsub : x - (base + BitVec.ofNat 64 o) = (x - base) - BitVec.ofNat 64 o :=
    sub_add_eq_sub_sub x base _
  have hlt : (x - base).toNat < 2 ^ 64 := (x - base).isLt
  rw [Outside] at hx
  rw [hsub, BitVec.toNat_sub, BitVec.toNat_ofNat]
  omega

theorem Field.store_outside (m : Mem) {base x : Addr} {n : ℕ} {f : Field} (hf : f.stop ≤ n)
    (hn : n ≤ 2 ^ 64) (hx : Outside base n x) : f.store base m x = m x :=
  Records.store_outside m f.value hf hn hx

/-- A field depends on the bytes of its record. -/
theorem Field.Holds.congr {m m' : Mem} {base : Addr} {n : ℕ} {f : Field} (hold : f.Holds m base)
    (hf : f.stop ≤ n) (hn : n ≤ 2 ^ 64) (h : ∀ x, ¬Outside base n x → m' x = m x) :
    f.Holds m' base := by
  refine (load_congr ?_).trans hold
  intro j hj
  apply h
  simp only [Field.stop] at hf
  rw [Outside, add_assoc, add_sub_cancel_left, ← BitVec.ofNat_add, BitVec.toNat_ofNat]
  omega

/-! ### All fields -/

theorem Field.Holds.storeAll {m : Mem} {base : Addr} {g : Field} (hold : g.Holds m base)
    {fs : List Field} (h : ∀ f ∈ fs, f.Apart g) (hfs : ∀ f ∈ fs, f.stop ≤ 2 ^ 64)
    (hg : g.stop ≤ 2 ^ 64) : g.Holds (storeAll base m fs) base := by
  induction fs generalizing m with
  | nil => exact hold
  | cons f fs ih =>
    exact ih (hold.store (h f List.mem_cons_self) (hfs f List.mem_cons_self) hg)
      (fun f' hf' => h f' (List.mem_cons_of_mem f hf'))
      (fun f' hf' => hfs f' (List.mem_cons_of_mem f hf'))

/-- **Record rule.** Fields apart from each other, stored once each, are all there. -/
theorem holds_storeAll (m : Mem) (base : Addr) {fs : List Field} (h : fs.Pairwise Field.Apart)
    (hfs : ∀ f ∈ fs, f.stop ≤ 2 ^ 64) : ∀ f ∈ fs, f.Holds (storeAll base m fs) base := by
  induction fs generalizing m with
  | nil => exact fun f hf => absurd hf List.not_mem_nil
  | cons g fs ih =>
    obtain ⟨hg, hrest⟩ := List.pairwise_cons.mp h
    have hstop : ∀ f ∈ fs, f.stop ≤ 2 ^ 64 := fun f hf => hfs f (List.mem_cons_of_mem g hf)
    have hfirst : g.stop ≤ 2 ^ 64 := hfs g List.mem_cons_self
    intro f hf
    rcases List.mem_cons.mp hf with rfl | hf
    · -- the fields stored after it are apart from it
      exact (Field.holds_store m base hfirst).storeAll (fun f' hf' => (hg f' hf').symm) hstop hfirst
    · exact ih (g.store base m) hrest hstop f hf

/-- **Frame rule.** Nothing outside the record changes. -/
theorem storeAll_outside (m : Mem) {base x : Addr} {n : ℕ} {fs : List Field}
    (hfs : ∀ f ∈ fs, f.stop ≤ n) (hn : n ≤ 2 ^ 64) (hx : Outside base n x) :
    storeAll base m fs x = m x := by
  induction fs generalizing m with
  | nil => rfl
  | cons f fs ih =>
    exact (ih (f.store base m) fun f' hf' => hfs f' (List.mem_cons_of_mem f hf')).trans
      (Field.store_outside m (hfs f List.mem_cons_self) hn hx)

/-! ### A record as one number -/

/-- Bytes within a load. -/
theorem extractLsb'_load (m : Mem) (a : Addr) {o n k : ℕ} (h : o + n ≤ k) :
    (m.load a k).extractLsb' (8 * o) (8 * n) = m.load (a + BitVec.ofNat 64 o) n := by
  apply BitVec.eq_of_getLsbD_eq
  intro i hi
  have haddr : a + BitVec.ofNat 64 o + BitVec.ofNat 64 (i / 8) =
      a + BitVec.ofNat 64 ((8 * o + i) / 8) := by
    rw [add_assoc, ← BitVec.ofNat_add, Nat.mul_add_div (by decide)]
  rw [BitVec.getLsbD_extractLsb', decide_eq_true hi, Bool.true_and,
    getLsbD_load m k a _ (by omega), getLsbD_load m n _ i hi, haddr, Nat.mul_add_mod]

/-- A field of the number a record reads as. -/
theorem Field.Holds.extract {m : Mem} {base : Addr} {f : Field} (hold : f.Holds m base) {k : ℕ}
    (hf : f.stop ≤ k) :
    (m.load base k).extractLsb' (8 * f.offset) (8 * f.bytes) = f.value :=
  (extractLsb'_load m base hf).trans hold

/-! ### Arrays -/

/-- Element `i` of an array of elements of `size` bytes. -/
def element (base : Addr) (size i : ℕ) : Addr := base + BitVec.ofNat 64 (size * i)

/-- The bytes of element `i`, by their distance from the base. -/
theorem outside_element_iff (base x : Addr) {size count i : ℕ} (hi : i < count)
    (hsize : size * count ≤ 2 ^ 64) : Outside (element base size i) size x ↔
      (x - base).toNat < size * i ∨ size * (i + 1) ≤ (x - base).toNat := by
  have hend : size * (i + 1) ≤ size * count := Nat.mul_le_mul_left size hi
  have hnext : size * (i + 1) = size * i + size := Nat.mul_succ size i
  have hsub : x - element base size i = (x - base) - BitVec.ofNat 64 (size * i) :=
    sub_add_eq_sub_sub x base _
  have hlt : (x - base).toNat < 2 ^ 64 := (x - base).isLt
  rw [Outside, hsub, BitVec.toNat_sub, BitVec.toNat_ofNat]
  omega

/-- The distance of two elements. -/
theorem element_sub (base : Addr) {size count i j : ℕ} (hij : i < j) (hj : j < count)
    (hsize : size * count ≤ 2 ^ 64) :
    size ≤ (element base size j - element base size i).toNat ∧
      size ≤ (element base size i - element base size j).toNat := by
  have hend : size * (j + 1) ≤ size * count := Nat.mul_le_mul_left size hj
  have hbetween : size * (i + 1) ≤ size * j := Nat.mul_le_mul_left size hij
  have hi : size * (i + 1) = size * i + size := Nat.mul_succ size i
  have hj' : size * (j + 1) = size * j + size := Nat.mul_succ size j
  simp only [element, add_sub_add_left_eq_sub, BitVec.toNat_sub, BitVec.toNat_ofNat]
  omega

/-- Elements do not overlap. -/
theorem element_apart (base : Addr) {size count i j : ℕ} (hi : i < count) (hj : j < count)
    (hne : i ≠ j) (hsize : size * count ≤ 2 ^ 64) :
    RangesApart (element base size i) size (element base size j) size := by
  rcases Nat.lt_or_gt_of_ne hne with h | h
  · exact element_sub base h hj hsize
  · exact (element_sub base h hi hsize).symm

/-- Outside an array is outside its elements. -/
theorem outside_element {base x : Addr} {size count i : ℕ} (hi : i < count)
    (hsize : size * count ≤ 2 ^ 64) (hx : Outside base (size * count) x) :
    Outside (element base size i) size x := by
  have hend : size * (i + 1) ≤ size * count := Nat.mul_le_mul_left size hi
  rw [outside_element_iff base x hi hsize]
  exact .inr (Nat.le_trans hend hx)

end MegaOS.Records
