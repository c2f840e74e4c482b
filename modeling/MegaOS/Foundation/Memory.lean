import Mathlib.Data.BitVec

/-!
# Byte memory and stacks of 64-bit words

A memory maps every 64-bit address to a byte. Multi-byte loads and stores are
little endian and wrap at the top of the address space, as the processor's do.

`WordsAt m a ws` says that the words `ws` lie in consecutive 8-byte slots from
`a` upwards. It is the form in which a stack is reasoned about: pushing a word
extends the list at its head, popping one removes the head, and no two slots
ever have to be compared.
-/

namespace MegaOS.Memory

abbrev Byte := BitVec 8
abbrev Word := BitVec 64
abbrev Addr := BitVec 64
abbrev Mem := Addr → Byte

/-- The `n` bytes from `a` upwards, least significant byte first. -/
def Mem.load (m : Mem) (a : Addr) : (n : ℕ) → BitVec (8 * n)
  | 0 => 0#0
  | n + 1 => (m.load (a + 1) n ++ m a : BitVec (8 * n + 8))

/-- Stores the `n` bytes of `v` from `a` upwards, least significant byte first. -/
def Mem.store (m : Mem) (a : Addr) (n : ℕ) (v : BitVec (8 * n)) : Mem :=
  fun x => if (x - a).toNat < n then v.extractLsb' (8 * (x - a).toNat) 8 else m x

def Mem.load64 (m : Mem) (a : Addr) : Word := m.load a 8
def Mem.store64 (m : Mem) (a : Addr) (v : Word) : Mem := m.store a 8 v

/-! ### Loads see the last store -/

/-- Bit `i` of a load is bit `i % 8` of byte `i / 8`. -/
theorem getLsbD_load (m : Mem) (n : ℕ) : ∀ (a : Addr) (i : ℕ), i < 8 * n →
    (m.load a n).getLsbD i = (m (a + BitVec.ofNat 64 (i / 8))).getLsbD (i % 8) := by
  induction n with
  | zero => intro a i hi; omega
  | succ n ih =>
    intro a i hi
    show (m.load (a + 1) n ++ m a : BitVec (8 * n + 8)).getLsbD i = _
    rw [BitVec.getLsbD_append]
    rcases Nat.lt_or_ge i 8 with h | h
    · have hdiv : i / 8 = 0 := by omega
      simp [h, hdiv, Nat.mod_eq_of_lt h]
    · have hdiv : i / 8 = (i - 8) / 8 + 1 := by omega
      have hmod : (i - 8) % 8 = i % 8 := by omega
      have haddr : a + 1 + BitVec.ofNat 64 ((i - 8) / 8) = a + BitVec.ofNat 64 (i / 8) := by
        rw [hdiv, Nat.add_comm, BitVec.ofNat_add, ← add_assoc]
        rfl
      rw [if_neg (Nat.not_lt.mpr h), ih (a + 1) (i - 8) (by omega), hmod, haddr]

/-- A load depends on the bytes it reads only. -/
theorem load_congr {m m' : Mem} {a : Addr} {n : ℕ}
    (h : ∀ j, j < n → m (a + BitVec.ofNat 64 j) = m' (a + BitVec.ofNat 64 j)) :
    m.load a n = m'.load a n := by
  apply BitVec.eq_of_getLsbD_eq
  intro i hi
  rw [getLsbD_load m n a i hi, getLsbD_load m' n a i hi, h (i / 8) (by omega)]

theorem store_apply_offset (m : Mem) (a : Addr) (n : ℕ) (v : BitVec (8 * n)) {j : ℕ}
    (hj : j < n) (hn : n ≤ 2 ^ 64) :
    m.store a n v (a + BitVec.ofNat 64 j) = v.extractLsb' (8 * j) 8 := by
  have hsub : (a + BitVec.ofNat 64 j - a).toNat = j := by
    rw [add_sub_cancel_left, BitVec.toNat_ofNat, Nat.mod_eq_of_lt (by omega)]
  simp only [Mem.store, hsub, if_pos hj]

theorem load_store_self (m : Mem) (a : Addr) (n : ℕ) (v : BitVec (8 * n)) (hn : n ≤ 2 ^ 64) :
    (m.store a n v).load a n = v := by
  apply BitVec.eq_of_getLsbD_eq
  intro i hi
  rw [getLsbD_load _ n a i hi, store_apply_offset m a n v (by omega) hn,
    BitVec.getLsbD_extractLsb', decide_eq_true (by omega), Bool.true_and]
  congr 1
  omega

/-- A byte outside the stored range keeps its value. -/
theorem store_apply_of_le (m : Mem) (a x : Addr) (n : ℕ) (v : BitVec (8 * n))
    (h : n ≤ (x - a).toNat) : m.store a n v x = m x := by
  simp only [Mem.store, if_neg (Nat.not_lt.mpr h)]

theorem load64_store64 (m : Mem) (a : Addr) (v : Word) : (m.store64 a v).load64 a = v :=
  load_store_self m a 8 v (by decide)

/-- **Frame.** A word that starts `d` bytes above a stored word is untouched, as long as
neither end of the two ranges wraps onto the other. -/
theorem load64_store64_above (m : Mem) (a : Addr) (v : Word) (d : ℕ) (hlo : 8 ≤ d)
    (hhi : d + 8 ≤ 2 ^ 64) :
    (m.store64 a v).load64 (a + BitVec.ofNat 64 d) = m.load64 (a + BitVec.ofNat 64 d) := by
  apply load_congr
  intro j hj
  apply store_apply_of_le
  have hsub : (a + BitVec.ofNat 64 d + BitVec.ofNat 64 j - a).toNat = d + j := by
    rw [add_assoc, add_sub_cancel_left, ← BitVec.ofNat_add, BitVec.toNat_ofNat,
      Nat.mod_eq_of_lt (by omega)]
  omega

/-! ### Consecutive words -/

/-- The words `ws` lie in consecutive 8-byte slots from `a` upwards. -/
def WordsAt (m : Mem) : Addr → List Word → Prop
  | _, [] => True
  | a, w :: ws => m.load64 a = w ∧ WordsAt m (a + 8) ws

theorem wordsAt_nil (m : Mem) (a : Addr) : WordsAt m a [] := trivial

/-- A store 8 or more bytes below a block of words leaves the block as it was. -/
theorem WordsAt.store_below {m : Mem} (a : Addr) (v : Word) (ws : List Word) :
    ∀ d : ℕ, 8 ≤ d → d + 8 * ws.length ≤ 2 ^ 64 → WordsAt m (a + BitVec.ofNat 64 d) ws →
      WordsAt (m.store64 a v) (a + BitVec.ofNat 64 d) ws := by
  induction ws with
  | nil => intro d _ _ _; trivial
  | cons w ws ih =>
    intro d hlo hhi h
    simp only [List.length_cons] at hhi
    have hnext : a + BitVec.ofNat 64 d + 8 = a + BitVec.ofNat 64 (d + 8) := by
      rw [BitVec.ofNat_add, ← add_assoc]
      rfl
    refine ⟨?_, ?_⟩
    · rw [load64_store64_above m a v d hlo (by omega)]
      exact h.1
    · rw [hnext]
      apply ih (d + 8) (by omega) (by omega)
      rw [← hnext]
      exact h.2

/-- **Push.** Storing a word just below a block of words extends the block at its head. -/
theorem WordsAt.push {m : Mem} {a : Addr} {ws : List Word} (h : WordsAt m a ws)
    (hlen : 8 * (ws.length + 1) ≤ 2 ^ 64) (v : Word) :
    WordsAt (m.store64 (a - 8) v) (a - 8) (v :: ws) := by
  have hback : a - 8 + BitVec.ofNat 64 8 = a := sub_add_cancel a 8
  refine ⟨load64_store64 m (a - 8) v, ?_⟩
  show WordsAt _ (a - 8 + BitVec.ofNat 64 8) ws
  apply WordsAt.store_below (a - 8) v ws 8 le_rfl (by omega)
  rw [hback]
  exact h

/-- Any `n` consecutive words are the ones their slots load. -/
theorem wordsAt_loads (m : Mem) (n : ℕ) : ∀ a : Addr,
    WordsAt m a ((List.range n).map fun i => m.load64 (a + BitVec.ofNat 64 (8 * i))) := by
  induction n with
  | zero => intro a; trivial
  | succ n ih =>
    intro a
    rw [List.range_succ_eq_map, List.map_cons, List.map_map]
    refine ⟨by simp, ?_⟩
    have hshift : (fun i => m.load64 (a + BitVec.ofNat 64 (8 * i))) ∘ Nat.succ =
        fun i => m.load64 (a + 8 + BitVec.ofNat 64 (8 * i)) := by
      funext i
      show m.load64 (a + BitVec.ofNat 64 (8 * (i + 1))) = _
      rw [Nat.mul_succ, Nat.add_comm, BitVec.ofNat_add, ← add_assoc]
      rfl
    rw [hshift]
    exact ih (a + 8)

end MegaOS.Memory
