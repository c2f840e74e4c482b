import Mathlib.Data.Nat.Digits.Lemmas

/-!
# Numerals

A numeral is a list of characters, the highest digit first. `digit` says which
number a character stands for as a digit, if any; `value` is the number that a
numeral denotes in a base, and `lowDigits` are the digits a fixed number of
places has room for: zeros in front when there are more places than digits, the
lowest digits when there are fewer.
-/

namespace MegaOS.Numerals

/-! ### The digits of a number in `k` places -/

/-- The `k` lowest digits of `n`, the lowest first. -/
def lowDigits (b n k : ℕ) : List ℕ :=
  (b.digits n ++ List.replicate (k - (b.digits n).length) 0).take k

theorem length_lowDigits (b n k : ℕ) : (lowDigits b n k).length = k := by
  rw [lowDigits, List.length_take, List.length_append, List.length_replicate]
  omega

theorem lt_of_mem_lowDigits {b n k d : ℕ} (hb : 2 ≤ b) (hd : d ∈ lowDigits b n k) : d < b := by
  rcases List.mem_append.mp (List.mem_of_mem_take hd) with hd | hd
  · exact Nat.digits_lt_base hb hd
  · rw [List.eq_of_mem_replicate hd]
    omega

/-- `k` places hold a number modulo `b ^ k`. -/
theorem ofDigits_lowDigits {b : ℕ} (hb : 2 ≤ b) (n k : ℕ) :
    Nat.ofDigits b (lowDigits b n k) = n % b ^ k := by
  have hlt : ∀ d ∈ b.digits n ++ List.replicate (k - (b.digits n).length) 0, d < b := by
    intro d hd
    rcases List.mem_append.mp hd with hd | hd
    · exact Nat.digits_lt_base hb hd
    · rw [List.eq_of_mem_replicate hd]
      omega
  rw [lowDigits, ← Nat.ofDigits_mod_pow_eq_ofDigits_take k (by omega) _ hlt,
    Nat.ofDigits_append_replicate_zero, Nat.ofDigits_digits]

/-- With a place for each digit, the rest are zeros. -/
theorem lowDigits_of_le {b n k : ℕ} (h : (b.digits n).length ≤ k) :
    lowDigits b n k = b.digits n ++ List.replicate (k - (b.digits n).length) 0 := by
  rw [lowDigits, List.take_of_length_le]
  rw [List.length_append, List.length_replicate]
  omega

/-- With fewer places, the highest digits are lost. -/
theorem lowDigits_of_ge {b n k : ℕ} (h : k ≤ (b.digits n).length) :
    lowDigits b n k = (b.digits n).take k := by
  rw [lowDigits, List.take_append_of_le_length h]

/-- More places put zeros behind. -/
theorem lowDigits_add {b n k : ℕ} (h : (b.digits n).length ≤ k) (m : ℕ) :
    lowDigits b n (k + m) = lowDigits b n k ++ List.replicate m 0 := by
  rw [lowDigits_of_le h, lowDigits_of_le (Nat.le_add_right_of_le h), List.append_assoc,
    List.replicate_append_replicate]
  congr 2
  omega

/-! ### What a numeral denotes -/

section Value

variable {α : Type*} (digit : α → Option ℕ) (b : ℕ)

/-- A character that is a digit in the base. -/
def IsDigit (c : α) : Prop := ∃ d < b, digit c = some d

instance (c : α) : Decidable (IsDigit digit b c) :=
  inferInstanceAs (Decidable (∃ d < b, digit c = some d))

/-- The number denoted. A character that is no digit counts as 0. -/
def value (s : List α) : ℕ := s.foldl (fun v c => v * b + (digit c).getD 0) 0

@[simp] theorem value_nil : value digit b [] = 0 := rfl

theorem value_concat (s : List α) (c : α) :
    value digit b (s ++ [c]) = value digit b s * b + (digit c).getD 0 := by
  rw [value, List.foldl_append]
  rfl

theorem value_append (s t : List α) :
    value digit b (s ++ t) = value digit b s * b ^ t.length + value digit b t := by
  induction t using List.reverseRecOn with
  | nil => simp
  | append_singleton t c ih =>
    rw [← List.append_assoc, value_concat, ih, value_concat, List.length_append,
      List.length_singleton, pow_succ]
    ring

/-- A zero in front does not count. -/
theorem value_zero_cons {z : α} (hz : digit z = some 0) (t : List α) :
    value digit b (z :: t) = value digit b t := by
  rw [← List.singleton_append, value_append]
  simp [value, hz]

variable {digit b}

/-- Written out, digits denote the number they make up. -/
theorem value_reverse_map {write : ℕ → α} (hwrite : ∀ d < b, digit (write d) = some d)
    {ds : List ℕ} (hds : ∀ d ∈ ds, d < b) :
    value digit b (ds.map write).reverse = Nat.ofDigits b ds := by
  induction ds with
  | nil => rfl
  | cons d ds ih =>
    have hd : (digit (write d)).getD 0 = d := by
      rw [hwrite d (hds d List.mem_cons_self)]
      rfl
    rw [List.map_cons, List.reverse_cons, value_concat, hd,
      ih (fun e he => hds e (List.mem_cons_of_mem d he)), Nat.ofDigits_cons]
    ring

/-- **A numeral in `k` places** denotes its number modulo `b ^ k`. -/
theorem value_lowDigits {write : ℕ → α} (hb : 2 ≤ b)
    (hwrite : ∀ d < b, digit (write d) = some d) (n k : ℕ) :
    value digit b ((lowDigits b n k).map write).reverse = n % b ^ k := by
  rw [value_reverse_map hwrite (fun d hd => lt_of_mem_lowDigits hb hd), ofDigits_lowDigits hb]

theorem isDigit_lowDigits {write : ℕ → α} (hb : 2 ≤ b)
    (hwrite : ∀ d < b, digit (write d) = some d) (n k : ℕ) :
    ∀ c ∈ ((lowDigits b n k).map write).reverse, IsDigit digit b c := by
  intro c hc
  obtain ⟨d, hd, rfl⟩ := List.mem_map.mp (List.mem_reverse.mp hc)
  exact ⟨d, lt_of_mem_lowDigits hb hd, hwrite d (lt_of_mem_lowDigits hb hd)⟩

end Value

/-- The places a number needs. -/
theorem mod_pow_eq_self_iff {b : ℕ} (hb : 2 ≤ b) (n k : ℕ) :
    n % b ^ k = n ↔ (b.digits n).length ≤ k := by
  rw [Nat.digits_length_le_iff hb, Nat.mod_eq_iff_lt (Nat.pow_pos (by omega)).ne']

end MegaOS.Numerals
