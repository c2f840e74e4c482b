import Mathlib.Data.List.Basic
import Mathlib.Data.List.Nodup

/-!
# Lines of a text

A text as the lines it is made of, and labelled lines: a mark, a label, spaces, a
separator, and what is recorded under the label. When no label occurs twice, each
record is found by its label.
-/

namespace MegaOS.Lines

variable {α : Type*}

/-! ### Splitting -/

/-- Each line ended by `lf`. -/
def unlines (lf : α) (ls : List (List α)) : List α := ls.flatMap (· ++ [lf])

theorem unlines_append (lf : α) (ls ls' : List (List α)) :
    unlines lf (ls ++ ls') = unlines lf ls ++ unlines lf ls' := List.flatMap_append

variable [DecidableEq α]

/-- Lines are read back, and nothing follows the last of them. -/
theorem splitOn_unlines (lf : α) {ls : List (List α)} (h : ∀ l ∈ ls, lf ∉ l) :
    (unlines lf ls).splitOn lf = ls ++ [[]] := by
  induction ls with
  | nil => rfl
  | cons l ls ih =>
    have hl : ∀ c ∈ l, (c == lf) = false := by
      intro c hc
      rw [beq_eq_false_iff_ne]
      exact fun heq => h l List.mem_cons_self (heq ▸ hc)
    have hrest := ih fun l' hl' => h l' (List.mem_cons_of_mem l hl')
    rw [List.splitOn] at hrest ⊢
    have hcons : unlines lf (l :: ls) = l ++ lf :: unlines lf ls := by
      rw [unlines, List.flatMap_cons, List.append_assoc]
      rfl
    rw [hcons, List.splitOnP_append_cons_of_forall_mem hl lf (beq_self_eq_true lf), hrest,
      List.cons_append]

/-- What comes before the first line may be in its way, and what comes after the last does not
belong to it. -/
theorem splitOn_append_unlines (lf : α) {first : List α} {ls : List (List α)}
    (h : ∀ l ∈ ls, lf ∉ l) (before after : List α) :
    (before ++ (unlines lf (first :: ls) ++ after)).splitOn lf =
      (before ++ first).splitOn lf ++ (ls ++ after.splitOn lf) := by
  have hrest : ∀ ls : List (List α), (∀ l ∈ ls, lf ∉ l) →
      (unlines lf ls ++ after).splitOn lf = ls ++ after.splitOn lf := by
    intro ls h
    induction ls with
    | nil => rfl
    | cons l ls ih =>
      have hcons : unlines lf (l :: ls) ++ after = l ++ lf :: (unlines lf ls ++ after) := by
        simp only [unlines, List.flatMap_cons, List.append_assoc, List.cons_append, List.nil_append]
      rw [hcons, List.splitOn_append_cons_self_of_not_mem (h l List.mem_cons_self),
        ih fun l' hl' => h l' (List.mem_cons_of_mem l hl'), List.cons_append]
  have hcons : before ++ (unlines lf (first :: ls) ++ after) =
      (before ++ first) ++ lf :: (unlines lf ls ++ after) := by
    simp only [unlines, List.flatMap_cons, List.append_assoc, List.cons_append, List.nil_append]
  rw [hcons, List.splitOn_append_cons_self, hrest ls h]

/-! ### Two characters for the end of a line -/

/-- A `cr` in front of each `lf`. -/
def expand (cr lf : α) (text : List α) : List α :=
  text.flatMap fun c => if c = lf then [cr, c] else [c]

theorem expand_append (cr lf : α) (s t : List α) :
    expand cr lf (s ++ t) = expand cr lf s ++ expand cr lf t := List.flatMap_append

theorem expand_cons (cr lf c : α) (t : List α) :
    expand cr lf (c :: t) = (if c = lf then [cr, c] else [c]) ++ expand cr lf t :=
  List.flatMap_cons

theorem head_expand {cr lf : α} (hne : cr ≠ lf) (t : List α) :
    (expand cr lf t).head? ≠ some lf := by
  cases t with
  | nil => exact (Option.some_ne_none lf).symm
  | cons c t =>
    rw [expand_cons]
    split
    · exact fun h => hne (Option.some.inj h)
    · rename_i hc
      exact fun h => hc (Option.some.inj h)

/-- The text is read back from what is sent. -/
theorem expand_injective {cr lf : α} (hne : cr ≠ lf) : Function.Injective (expand cr lf) := by
  intro s
  induction s with
  | nil =>
    intro t h
    cases t with
    | nil => rfl
    | cons d t =>
      rw [expand_cons] at h
      split at h
      · exact absurd h (List.cons_ne_nil _ _).symm
      · exact absurd h (List.cons_ne_nil _ _).symm
  | cons c s ih =>
    intro t h
    cases t with
    | nil =>
      rw [expand_cons] at h
      split at h
      · exact absurd h (List.cons_ne_nil _ _)
      · exact absurd h (List.cons_ne_nil _ _)
    | cons d t =>
      rw [expand_cons, expand_cons] at h
      by_cases hc : c = lf
      · by_cases hd : d = lf
        · rw [if_pos hc, if_pos hd, hc, hd] at h
          rw [hc, hd, ih (List.append_cancel_left h)]
        · rw [if_pos hc, if_neg hd] at h
          have htail : lf :: expand cr lf s = expand cr lf t := hc ▸ (List.cons.inj h).2
          exact absurd (htail ▸ rfl) (head_expand hne t)
      · by_cases hd : d = lf
        · rw [if_neg hc, if_pos hd] at h
          have htail : expand cr lf s = lf :: expand cr lf t := hd ▸ (List.cons.inj h).2
          exact absurd (htail ▸ rfl) (head_expand hne s)
        · rw [if_neg hc, if_neg hd] at h
          obtain ⟨rfl, htail⟩ := List.cons.inj h
          rw [ih htail]

/-- Each `cr` in front of an `lf` dropped. -/
def collapse (cr lf : α) : List α → List α
  | [] => []
  | [c] => [c]
  | c :: d :: text =>
    if c = cr ∧ d = lf then lf :: collapse cr lf text else c :: collapse cr lf (d :: text)

/-- A character that is not dropped. -/
theorem collapse_cons {cr lf c : α} {text : List α} (h : c ≠ cr ∨ text.head? ≠ some lf) :
    collapse cr lf (c :: text) = c :: collapse cr lf text := by
  cases text with
  | nil => rfl
  | cons d text =>
    rw [collapse, if_neg]
    rintro ⟨hc, hd⟩
    exact h.elim (fun h => h hc) fun h => h (congrArg some hd)

/-- The text is restored at the other end. -/
theorem collapse_expand {cr lf : α} (hne : cr ≠ lf) (text : List α) :
    collapse cr lf (expand cr lf text) = text := by
  induction text with
  | nil => rfl
  | cons c text ih =>
    rw [expand_cons]
    by_cases hc : c = lf
    · rw [if_pos hc]
      show collapse cr lf (cr :: c :: expand cr lf text) = _
      rw [collapse, if_pos ⟨rfl, hc⟩, ih, hc]
    · rw [if_neg hc]
      show collapse cr lf (c :: expand cr lf text) = _
      rw [collapse_cons (.inr (head_expand hne text)), ih]

/-- **A text is restored behind any other**, wherever that one ends. -/
theorem collapse_append_expand {cr lf : α} (hne : cr ≠ lf) (before text : List α) :
    collapse cr lf (before ++ expand cr lf text) = collapse cr lf before ++ text := by
  fun_induction collapse cr lf before with
  | case1 => exact collapse_expand hne text
  | case2 c =>
    show collapse cr lf (c :: expand cr lf text) = c :: text
    rw [collapse_cons (.inr (head_expand hne text)), collapse_expand hne]
  | case3 c d before h ih =>
    show collapse cr lf (c :: d :: (before ++ expand cr lf text)) = _
    rw [collapse, if_pos h, ih]
    rfl
  | case4 c d before h ih =>
    show collapse cr lf (c :: d :: (before ++ expand cr lf text)) = _
    rw [collapse, if_neg h]
    exact congrArg (c :: ·) ih

/-! ### Labelled lines -/

section Entries

variable (mark sep : List α) (space : α)

/-- A labelled line, with `n + 1` spaces behind the label. -/
def entry (label : List α) (n : ℕ) (record : List α) : List α :=
  mark ++ (label ++ (List.replicate (n + 1) space ++ (sep ++ record)))

/-- The label of a line that begins with the mark. -/
def labelOf (line : List α) : Option (List α) :=
  if line.take mark.length = mark then some ((line.drop mark.length).takeWhile (· ≠ space)) else none

variable {space}

theorem labelOf_entry {label : List α} (hlabel : space ∉ label) (n : ℕ) (record : List α) :
    labelOf mark space (entry mark sep space label n record) = some label := by
  have hall : ∀ c ∈ label, decide (c ≠ space) = true := fun c hc =>
    decide_eq_true fun heq => hlabel (heq ▸ hc)
  rw [labelOf, entry, List.take_left, if_pos rfl, List.drop_left,
    List.takeWhile_append_of_pos hall, List.replicate_succ, List.cons_append,
    List.takeWhile_cons_of_neg (by simp), List.append_nil]

/-- The record of a labelled line. -/
theorem entry_inj {label : List α} {m n : ℕ} {r r' : List α} (hsep : sep.head? ≠ some space)
    (hnil : sep ≠ []) (h : entry mark sep space label m r = entry mark sep space label n r') :
    r = r' := by
  have hspaces := List.append_cancel_left (List.append_cancel_left h)
  obtain ⟨c, sep', rfl⟩ := List.exists_cons_of_ne_nil hnil
  have hc : c ≠ space := fun heq => hsep (heq ▸ rfl)
  have hdrop : ∀ (k : ℕ) (t : List α),
      (List.replicate k space ++ (c :: sep' ++ t)).dropWhile (· = space) = c :: sep' ++ t := by
    intro k t
    rw [List.dropWhile_append_of_pos, List.cons_append,
      List.dropWhile_cons_of_neg (by simpa using hc)]
    intro d hd
    rw [List.eq_of_mem_replicate hd]
    exact decide_eq_true rfl
  have hrest := congrArg (List.dropWhile (· = space)) hspaces
  rw [hdrop, hdrop] at hrest
  exact List.append_cancel_left hrest

/-- `line` is the only one of the lines with its label. -/
theorem exists_unique_entry {ls : List (List α)} (hnodup : (ls.filterMap (labelOf mark space)).Nodup)
    {line label : List α} (hmem : line ∈ ls) (hlabel : labelOf mark space line = some label) :
    ∃ before after, ls = before ++ line :: after ∧
      ∀ l ∈ before ++ after, labelOf mark space l ≠ some label := by
  obtain ⟨before, after, rfl⟩ := List.append_of_mem hmem
  refine ⟨before, after, rfl, ?_⟩
  rw [List.filterMap_append, List.filterMap_cons_some hlabel, List.nodup_middle,
    ← List.filterMap_append] at hnodup
  intro l hl heq
  exact (List.nodup_cons.mp hnodup).1 (List.mem_filterMap.mpr ⟨l, hl, heq⟩)

end Entries

end MegaOS.Lines
