import Mathlib.Data.List.GetD
import Mathlib.Logic.Function.Basic

/-!
# Emitting characters one by one

A producer hands its characters to a sink, each with a running index and the
limit the producer was given. Whatever the sink does with them, the index counts
the characters; a sink that stores below the limit keeps a prefix of the text.
-/

namespace MegaOS.Emission

/-- Called with the character, its index and the limit. -/
abbrev Sink (α σ : Type*) := α → ℕ → ℕ → σ → σ

/-- The running index and the state of the sink. -/
structure Cursor (σ : Type*) where
  idx : ℕ
  state : σ

section Emit

variable {α σ : Type*} (out : Sink α σ) (limit : ℕ)

def put (c : α) (o : Cursor σ) : Cursor σ := ⟨o.idx + 1, out c o.idx limit o.state⟩

def emit : List α → Cursor σ → Cursor σ
  | [], o => o
  | c :: text, o => emit text (put out limit c o)

@[simp] theorem emit_nil (o : Cursor σ) : emit out limit [] o = o := rfl

theorem emit_append (s t : List α) (o : Cursor σ) :
    emit out limit (s ++ t) o = emit out limit t (emit out limit s o) := by
  induction s generalizing o with
  | nil => rfl
  | cons c s ih => exact ih (put out limit c o)

/-- The index advances by one for each character, whatever the sink does. -/
theorem emit_idx (t : List α) (o : Cursor σ) : (emit out limit t o).idx = o.idx + t.length := by
  induction t generalizing o with
  | nil => rfl
  | cons c t ih =>
    show (emit out limit t (put out limit c o)).idx = _
    rw [ih, List.length_cons]
    show o.idx + 1 + t.length = _
    omega

end Emit

/-! ### Keeping every character -/

section Record

variable {α : Type*} {limit : ℕ}

/-- The sink that keeps every character. -/
def record : Sink α (List α) := fun c _ _ text => text ++ [c]

theorem emit_record (t : List α) (o : Cursor (List α)) :
    (emit record limit t o).state = o.state ++ t := by
  induction t generalizing o with
  | nil => exact (List.append_nil _).symm
  | cons c t ih =>
    rw [emit, ih]
    exact List.append_assoc ..

/-- It tells two texts apart. -/
theorem emit_record_inj {s t : List α} {o : Cursor (List α)}
    (h : emit record limit s o = emit record limit t o) : s = t := by
  have hstate := congrArg Cursor.state h
  rw [emit_record, emit_record] at hstate
  exact List.append_cancel_left hstate

end Record

/-! ### Storing below the limit -/

section Store

variable {α : Type*}

/-- The stores into an array, in order. -/
abbrev Stores (α : Type*) := List (ℕ × α)

/-- The sink that stores a character whose index is below the limit. -/
def boundedStore : Sink α (Stores α) := fun c idx limit stores =>
  if idx < limit then stores ++ [(idx, c)] else stores

/-- The array after the stores, given what it held before. -/
def contents (before : ℕ → α) (stores : Stores α) : ℕ → α :=
  stores.foldl (fun a w => Function.update a w.1 w.2) before

theorem contents_append (before : ℕ → α) (s t : Stores α) :
    contents before (s ++ t) = contents (contents before s) t := List.foldl_append

/-- One store changes one cell. -/
theorem contents_put (before : ℕ → α) (limit : ℕ) (c : α) (o : Cursor (Stores α)) (j : ℕ) :
    contents before (put boundedStore limit c o).state j =
      if j = o.idx ∧ o.idx < limit then c else contents before o.state j := by
  show contents before (if o.idx < limit then o.state ++ [(o.idx, c)] else o.state) j = _
  by_cases hlt : o.idx < limit
  · rw [if_pos hlt, contents_append]
    show Function.update (contents before o.state) o.idx c j = _
    by_cases hj : j = o.idx
    · rw [if_pos ⟨hj, hlt⟩, hj, Function.update_self]
    · rw [if_neg (fun h => hj h.1), Function.update_of_ne hj]
  · rw [if_neg hlt, if_neg (fun h => hlt h.2)]

/-- Cells before the cursor keep what they hold. -/
theorem contents_emit_before (before : ℕ → α) (limit : ℕ) (t : List α) (o : Cursor (Stores α))
    {j : ℕ} (hj : j < o.idx) :
    contents before (emit boundedStore limit t o).state j = contents before o.state j := by
  induction t generalizing o with
  | nil => rfl
  | cons c t ih =>
    show contents before (emit boundedStore limit t (put boundedStore limit c o)).state j = _
    rw [ih (put boundedStore limit c o) (Nat.lt_succ_of_lt hj), contents_put,
      if_neg (by omega)]

/-- **Truncation.** Below the limit the array holds the text that was emitted. -/
theorem contents_emit_get (before : ℕ → α) (limit : ℕ) (t : List α) (o : Cursor (Stores α))
    {k : ℕ} (hk : k < t.length) (hlim : o.idx + k < limit) :
    contents before (emit boundedStore limit t o).state (o.idx + k) = t[k] := by
  induction t generalizing o k with
  | nil => exact absurd hk (Nat.not_lt_zero k)
  | cons c t ih =>
    show contents before (emit boundedStore limit t (put boundedStore limit c o)).state _ = _
    cases k with
    | zero =>
      have hbelow := contents_emit_before before limit t (put boundedStore limit c o)
        (Nat.lt_succ_self o.idx)
      rw [Nat.add_zero, hbelow, contents_put, if_pos ⟨rfl, hlim⟩]
      rfl
    | succ k =>
      have hidx : o.idx + (k + 1) = (put boundedStore limit c o).idx + k := by
        show _ = o.idx + 1 + k
        omega
      rw [hidx, ih (put boundedStore limit c o) (Nat.lt_of_succ_lt_succ hk) (by omega)]
      rfl

/-- No store is made at the limit or above. -/
theorem emit_stores_lt (limit : ℕ) (t : List α) (o : Cursor (Stores α))
    (ho : ∀ w ∈ o.state, w.1 < limit) :
    ∀ w ∈ (emit boundedStore limit t o).state, w.1 < limit := by
  induction t generalizing o with
  | nil => exact ho
  | cons c t ih =>
    apply ih
    intro w hw
    by_cases hlt : o.idx < limit
    · rw [put, boundedStore, if_pos hlt, List.mem_append, List.mem_singleton] at hw
      rcases hw with hw | rfl
      · exact ho w hw
      · exact hlt
    · rw [put, boundedStore, if_neg hlt] at hw
      exact ho w hw

/-- The stores of a text from index 0, ended by `z` at the last cell below the limit or after the
text, whichever comes first. -/
def storeTerminated (limit : ℕ) (t : List α) (z : α) : Stores α :=
  boundedStore z (min t.length (limit - 1)) limit (emit boundedStore limit t ⟨0, []⟩).state

theorem storeTerminated_lt (limit : ℕ) (t : List α) (z : α) :
    ∀ w ∈ storeTerminated limit t z, w.1 < limit := by
  have hbelow := emit_stores_lt limit t ⟨0, []⟩ (fun _ hw => absurd hw List.not_mem_nil)
  exact emit_stores_lt limit [z] ⟨min t.length (limit - 1), _⟩ hbelow

/-- **A terminated text.** The array holds the text as far as it fits, and `z` behind it. -/
theorem contents_storeTerminated (before : ℕ → α) {limit : ℕ} (hlimit : 0 < limit) (t : List α)
    (z : α) :
    (∀ i (hi : i < t.length), i < limit - 1 →
        contents before (storeTerminated limit t z) i = t[i]) ∧
      contents before (storeTerminated limit t z) (min t.length (limit - 1)) = z := by
  have hlast := contents_put before limit z
    ⟨min t.length (limit - 1), (emit boundedStore limit t ⟨0, []⟩).state⟩
  constructor
  · intro i hi hlim
    have hget := contents_emit_get before limit t ⟨0, []⟩ hi (by show 0 + i < limit; omega)
    refine (hlast i).trans ?_
    rw [if_neg (by show ¬(i = min t.length (limit - 1) ∧ _); omega)]
    rw [Nat.zero_add] at hget
    exact hget
  · refine (hlast _).trans (if_pos ⟨rfl, ?_⟩)
    show min t.length (limit - 1) < limit
    omega

/-- Cells behind the text, and those from the limit on, keep what they hold. -/
theorem contents_emit_beyond (before : ℕ → α) (limit : ℕ) (t : List α) (o : Cursor (Stores α))
    {j : ℕ} (hj : o.idx + t.length ≤ j ∨ limit ≤ j) :
    contents before (emit boundedStore limit t o).state j = contents before o.state j := by
  induction t generalizing o with
  | nil => rfl
  | cons c t ih =>
    rw [List.length_cons] at hj
    show contents before (emit boundedStore limit t (put boundedStore limit c o)).state j = _
    have hidx : (put boundedStore limit c o).idx = o.idx + 1 := rfl
    rw [ih (put boundedStore limit c o) (by omega), contents_put, if_neg (by omega)]

/-- **A terminated text**, cell by cell. -/
theorem contents_storeTerminated_apply (before : ℕ → α) (limit : ℕ) (t : List α) (z : α) (i : ℕ) :
    contents before (storeTerminated limit t z) i =
      if limit ≤ i ∨ t.length < i then before i
      else if i = limit - 1 then z else t.getD i z := by
  have hlast := contents_put before limit z
    ⟨min t.length (limit - 1), (emit boundedStore limit t ⟨0, []⟩).state⟩ i
  have hbeyond := contents_emit_beyond before limit t ⟨0, []⟩ (j := i)
  refine hlast.trans ?_
  by_cases hout : limit ≤ i ∨ t.length < i
  · rw [if_pos hout, if_neg (by show ¬(i = min t.length (limit - 1) ∧ _); omega)]
    exact hbeyond (by show 0 + t.length ≤ i ∨ _; omega)
  · rw [if_neg hout]
    by_cases hi : i = min t.length (limit - 1)
    · rw [if_pos ⟨hi, by show min t.length (limit - 1) < limit; omega⟩]
      by_cases hlim : i = limit - 1
      · rw [if_pos hlim]
      · rw [if_neg hlim, List.getD_eq_default t z (by omega)]
    · have hget := contents_emit_get before limit t ⟨0, []⟩ (k := i) (by omega)
        (by show 0 + i < limit; omega)
      rw [if_neg (by show ¬(i = min t.length (limit - 1) ∧ _); omega), if_neg (by omega),
        List.getD_eq_getElem t z (by omega)]
      rw [Nat.zero_add] at hget
      exact hget

/-- The same stores from cell `k` on. -/
def Stores.shift (k : ℕ) (stores : Stores α) : Stores α := stores.map fun w => (w.1 + k, w.2)

end Store

end MegaOS.Emission
