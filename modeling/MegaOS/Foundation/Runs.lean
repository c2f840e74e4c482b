import Mathlib.Data.Option.Basic
import Mathlib.Data.List.Basic

/-!
# Runs of event-driven machines

A machine takes events one at a time; an event that is not possible in a state
has no successor. A run is what a list of events does, and `Along P` says that
every transition a run takes satisfies `P`.

Six rules carry most run proofs: an invariant kept by every step holds of every
state a run reaches, an invariant whose steps satisfy `P` gives `Along P`, two
transition properties that agree under an invariant hold along the same runs, a
machine whose steps are matched by another's has its runs matched, a machine whose
steps are seen as another's or not at all has its runs seen as the other's, and a
machine that can always lower a rank comes to a final state.
-/

namespace MegaOS.Runs

/-- `step s e = none` means that the event `e` cannot happen in the state `s`. -/
structure Machine (σ ε : Type*) where
  step : σ → ε → Option σ

namespace Machine

variable {σ ε : Type*} (M : Machine σ ε)

/-- The state after a list of events, if all of them can happen in turn. -/
def run : σ → List ε → Option σ
  | s, [] => some s
  | s, e :: es =>
    match M.step s e with
    | some s' => run s' es
    | none => none

/-- Every transition `s —e→ s'` taken by the events satisfies `P s e s'`. -/
def Along (P : σ → ε → σ → Prop) : σ → List ε → Prop
  | _, [] => True
  | s, e :: es => ∀ s', M.step s e = some s' → P s e s' ∧ Along P s' es

variable {M}

theorem run_cons {s s' : σ} {e : ε} {es : List ε} (h : M.step s e = some s') :
    M.run s (e :: es) = M.run s' es := by
  simp only [run, h]

theorem run_append (s : σ) (es es' : List ε) :
    M.run s (es ++ es') = (M.run s es).bind fun t => M.run t es' := by
  induction es generalizing s with
  | nil => rfl
  | cons e es ih =>
    rw [List.cons_append]
    cases hse : M.step s e with
    | none => simp only [run, hse, Option.bind_none]
    | some s' => rw [run_cons hse, run_cons hse, ih]

/-- What every step on the events of a kind keeps holds of every state such events reach. -/
theorem run_invariant_on {I : σ → Prop} {P : ε → Prop}
    (hstep : ∀ s e s', I s → P e → M.step s e = some s' → I s') {s t : σ} {es : List ε}
    (hes : ∀ e ∈ es, P e) (hs : I s) (hrun : M.run s es = some t) : I t := by
  induction es generalizing s with
  | nil =>
    obtain rfl := Option.some.inj hrun
    exact hs
  | cons e es ih =>
    obtain ⟨he, hes⟩ := List.forall_mem_cons.mp hes
    cases hse : M.step s e with
    | none => simp [run, hse] at hrun
    | some s' =>
      rw [run_cons hse] at hrun
      exact ih hes (hstep s e s' hs he hse) hrun

/-- **Invariant rule.** What every step keeps holds of every state a run reaches. -/
theorem run_invariant {I : σ → Prop} (hstep : ∀ s e s', I s → M.step s e = some s' → I s')
    {s t : σ} {es : List ε} (hs : I s) (hrun : M.run s es = some t) : I t :=
  run_invariant_on (P := fun _ => True) (fun s e s' h _ => hstep s e s' h) (fun _ _ => trivial)
    hs hrun

/-- **Transition rule.** If steps from invariant states keep the invariant and satisfy `P`, so do
all transitions of a run. -/
theorem along_of_invariant {I : σ → Prop} {P : σ → ε → σ → Prop}
    (hstep : ∀ s e s', I s → M.step s e = some s' → I s' ∧ P s e s') {s : σ} (hs : I s)
    (es : List ε) : M.Along P s es := by
  induction es generalizing s with
  | nil => trivial
  | cons e es ih =>
    intro s' hse
    obtain ⟨hs', hp⟩ := hstep s e s' hs hse
    exact ⟨hp, ih hs'⟩

/-- What holds of every state that is reached holds along every run. -/
theorem along_of_run {P : σ → Prop} {s : σ} (h : ∀ es t, M.run s es = some t → P t)
    (es : List ε) : M.Along (fun _ _ s' => P s') s es := by
  induction es generalizing s with
  | nil => trivial
  | cons e es ih =>
    intro s' hse
    refine ⟨h [e] s' (run_cons hse), ?_⟩
    exact ih fun es' t hrun => h (e :: es') t ((run_cons hse).trans hrun)

/-- Each transition of a run along `P` satisfies it. -/
theorem along_step {P : σ → ε → σ → Prop} {s t t' : σ} {e : ε} {es es' : List ε}
    (h : M.Along P s (es ++ e :: es')) (hrun : M.run s es = some t)
    (hstep : M.step t e = some t') : P t e t' := by
  induction es generalizing s with
  | nil =>
    obtain rfl := Option.some.inj hrun
    exact (h t' hstep).1
  | cons e' es ih =>
    cases hse : M.step s e' with
    | none => simp [run, hse] at hrun
    | some s' =>
      rw [run_cons hse] at hrun
      exact ih (h s' hse).2 hrun

/-- **Equivalence rule.** Under an invariant that the steps satisfying `Q` keep, two transition
properties that agree on each step hold along the same runs. -/
theorem along_iff {I : σ → Prop} {P Q : σ → ε → σ → Prop}
    (hkeep : ∀ s e s', I s → M.step s e = some s' → Q s e s' → I s')
    (hiff : ∀ s e s', I s → M.step s e = some s' → (P s e s' ↔ Q s e s')) {s : σ} (hs : I s)
    (es : List ε) : M.Along P s es ↔ M.Along Q s es := by
  induction es generalizing s with
  | nil => exact Iff.rfl
  | cons e es ih =>
    apply forall_congr'
    intro s'
    apply forall_congr'
    intro hse
    rw [hiff s e s' hs hse]
    apply and_congr_right
    intro hq
    exact ih (hkeep s e s' hs hse hq)

/-- **Simulation rule.** `f` says which events of `M` are events of the machine `A`; the others
leave `A` where it is. If every step of `M` is matched, under a condition on its event, then so is
every run. -/
theorem run_simulation {τ α : Type*} {A : Machine τ α} {R : σ → τ → Prop} {P : ε → Prop}
    (f : ε → Option α)
    (hstep : ∀ s t e s', R s t → P e → M.step s e = some s' →
      ∃ t', A.run t (f e).toList = some t' ∧ R s' t')
    {s s' : σ} {t : τ} {es : List ε} (hes : ∀ e ∈ es, P e) (hR : R s t)
    (hrun : M.run s es = some s') : ∃ t', A.run t (es.filterMap f) = some t' ∧ R s' t' := by
  induction es generalizing s t with
  | nil =>
    obtain rfl := Option.some.inj hrun
    exact ⟨t, rfl, hR⟩
  | cons e es ih =>
    cases hse : M.step s e with
    | none => simp [run, hse] at hrun
    | some s₁ =>
      rw [run_cons hse] at hrun
      obtain ⟨t₁, hone, hR₁⟩ := hstep s t e s₁ hR (hes e List.mem_cons_self) hse
      obtain ⟨t', hrest, hR'⟩ := ih (fun e' he' => hes e' (List.mem_cons_of_mem e he')) hR₁ hrun
      refine ⟨t', ?_, hR'⟩
      have hsplit : (e :: es).filterMap f = (f e).toList ++ es.filterMap f := by
        cases hfe : f e with
        | none => rw [List.filterMap_cons_none hfe, Option.toList_none, List.nil_append]
        | some a => rw [List.filterMap_cons_some hfe]; rfl
      rw [hsplit, run_append, hone, Option.bind_some, hrest]

/-- **Projection rule.** If each step of `M`, seen through `view`, changes nothing or is a step of
the machine `A`, then each run of `M` is seen as a run of `A`. -/
theorem run_projection {τ α : Type*} {A : Machine τ α} (view : σ → τ)
    (hstep : ∀ s e s', M.step s e = some s' →
      view s' = view s ∨ ∃ a, A.step (view s) a = some (view s'))
    {s s' : σ} {es : List ε} (hrun : M.run s es = some s') :
    ∃ as, A.run (view s) as = some (view s') := by
  induction es generalizing s with
  | nil =>
    obtain rfl := Option.some.inj hrun
    exact ⟨[], rfl⟩
  | cons e es ih =>
    cases hse : M.step s e with
    | none => simp [run, hse] at hrun
    | some s₁ =>
      rw [run_cons hse] at hrun
      obtain ⟨as, has⟩ := ih hrun
      rcases hstep s e s₁ hse with heq | ⟨a, ha⟩
      · exact ⟨as, heq ▸ has⟩
      · exact ⟨a :: as, (run_cons ha).trans has⟩

/-- **Progress rule.** If from every invariant state that is not final some event of the kind `Q`
lowers a rank, then events of that kind lead to a final state, in no more steps than the rank. -/
theorem exists_run_of_rank {I Final : σ → Prop} {Q : ε → Prop} (rank : σ → ℕ)
    (hprogress : ∀ s, I s → ¬Final s →
      ∃ e s', Q e ∧ M.step s e = some s' ∧ I s' ∧ rank s' < rank s) {s : σ} (hs : I s) :
    ∃ es t, (∀ e ∈ es, Q e) ∧ es.length ≤ rank s ∧ M.run s es = some t ∧ I t ∧ Final t := by
  induction hn : rank s using Nat.strongRecOn generalizing s with
  | ind n ih =>
    by_cases hfinal : Final s
    · exact ⟨[], s, fun e he => absurd he List.not_mem_nil, Nat.zero_le _, rfl, hs, hfinal⟩
    · obtain ⟨e, s', he, hstep, hs', hlt⟩ := hprogress s hs hfinal
      obtain ⟨es, t, hes, hlen, hrun, ht⟩ := ih (rank s') (hn ▸ hlt) hs' rfl
      refine ⟨e :: es, t, List.forall_mem_cons.mpr ⟨he, hes⟩, ?_, (run_cons hstep).trans hrun, ht⟩
      rw [List.length_cons, ← hn]
      exact Nat.succ_le_of_lt (Nat.lt_of_le_of_lt hlen hlt)

end Machine

end MegaOS.Runs
