import Mathlib.Data.List.Basic

/-!
# Null-terminated chains

A node leads to the next one; a chain ends where the null node is reached. A walk
that looks for the first node with a property finds it, on a finite chain.
-/

namespace MegaOS.Chain

variable {α : Type*} (null : α) (next : α → α)

/-- The nodes from `a` on are `as`, and the last one leads to `null`. -/
def IsChain : α → List α → Prop
  | a, [] => a = null
  | a, b :: as => a ≠ null ∧ a = b ∧ IsChain (next a) as

/-- The walk, of at most `fuel` rounds: `null` when the chain ends without a node that satisfies
`p`. -/
def search [DecidableEq α] (p : α → Bool) : ℕ → α → Option α
  | 0, _ => none
  | fuel + 1, a =>
    if a = null then some null
    else if p a then some a
    else search p fuel (next a)

variable {null next}

/-- A chain does not contain `null`. -/
theorem IsChain.ne_null {a b : α} {as : List α} (h : IsChain null next a as) (hb : b ∈ as) :
    b ≠ null := by
  induction as generalizing a with
  | nil => exact absurd hb List.not_mem_nil
  | cons c as ih =>
    obtain ⟨hne, rfl, hrest⟩ := h
    rcases List.mem_cons.mp hb with rfl | hb
    · exact hne
    · exact ih hrest hb

/-- **The walk ends**, with the first node that satisfies `p`, or with `null` if there is none. -/
theorem search_chain [DecidableEq α] {a : α} {as : List α} (h : IsChain null next a as)
    (p : α → Bool) {fuel : ℕ} (hfuel : as.length < fuel) :
    search null next p fuel a = some ((as.find? p).getD null) := by
  induction as generalizing a fuel with
  | nil =>
    cases fuel with
    | zero => exact absurd hfuel (Nat.not_lt_zero _)
    | succ fuel => exact if_pos h
  | cons b as ih =>
    obtain ⟨hne, rfl, hrest⟩ := h
    cases fuel with
    | zero => exact absurd hfuel (Nat.not_lt_zero _)
    | succ fuel =>
      rw [search, if_neg hne]
      cases hp : p a with
      | true => simp [hp]
      | false =>
        simp only [Bool.false_eq_true, if_false, List.find?_cons, hp]
        exact ih hrest (Nat.lt_of_succ_lt_succ hfuel)

end MegaOS.Chain
