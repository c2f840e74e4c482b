import MegaOS.Devices.Serial
import MegaOS.Foundation.Lines
import MegaOS.Log.Denotation

/-!
# What the host reads

The serial line from the first byte to the text at the other end. However far a
run has got, what is left to send can be sent; the messages of the contexts are
nested on the line as the contexts are, and that of an exception stands unbroken;
and the host, dropping the CR in front of each LF, has the text of the formats.
-/

namespace MegaOS.Serial

open MegaOS.Memory MegaOS.Log MegaOS.Runs MegaOS.Uart16550 MegaOS.Lines

/-! ### Work -/

/-- A byte is waited for, written, and taken out of the FIFO. -/
def Context.work (c : Context) : ℕ := 3 * c.rest.length - c.ready.toNat

def System.work (s : System) : ℕ :=
  (s.contexts.map Context.work).sum + s.uart.fifo.length + s.contexts.length

/-- A context that has checked the status has a byte to write. -/
def Waits (s : System) : Prop := ∀ c ∈ s.contexts, c.ready = true → c.rest ≠ []

/-- The thread is back from its calls, and nothing waits in the FIFO. -/
structure AllSent (sent : List Byte) (s : System) : Prop where
  alone : s.kinds = [.thread]
  line : s.uart.line = sent ++ s.writes.map Prod.snd
  own : ∀ i program, s.programs[i]? = some program → writtenBy s.writes i = program

theorem work_cons {s : System} {c : Context} {cs : List Context} (h : s.contexts = c :: cs) :
    s.work = c.work + (cs.map Context.work).sum + s.uart.fifo.length + (cs.length + 1) := by
  rw [System.work, h, List.map_cons, List.sum_cons, List.length_cons]

theorem step_waits {s s' : System} {e : Event} (hs : Waits s) (h : s.step e = some s') :
    Waits s' := by
  by_cases hquiet : Quiet e
  · cases e with
    | poll other =>
      obtain ⟨c, cs, hctx, hrest, -, ⟨-, rfl⟩ | ⟨-, rfl⟩⟩ := poll_eq_some h
      · intro d hd hready
        rcases List.mem_cons.mp hd with rfl | hd
        · exact hrest
        · exact hs d (hctx ▸ List.mem_cons_of_mem c hd) hready
      · exact hs
    | write =>
      obtain ⟨c, cs, b, rest, hctx, -, -, rfl⟩ := write_eq_some h
      intro d hd hready
      rcases List.mem_cons.mp hd with rfl | hd
      · exact absurd hready Bool.false_ne_true
      · exact hs d (hctx ▸ List.mem_cons_of_mem c hd) hready
    | drain =>
      obtain ⟨b, fifo, -, rfl⟩ := drain_step_eq_some h
      exact hs
    | finish =>
      obtain ⟨c, cs, hctx, -, -, rfl⟩ := finish_eq_some h
      exact fun d hd => hs d (hctx ▸ List.mem_cons_of_mem c hd)
    | interrupt sends => exact hquiet.elim
    | exception sends => exact hquiet.elim
  · have hentered : ∀ kind sends, Waits (s.enter kind sends) := by
      intro kind sends d hd hready
      rcases List.mem_cons.mp hd with rfl | hd
      · exact absurd hready Bool.false_ne_true
      · exact hs d hd hready
    obtain ⟨sends, ⟨-, -, rfl⟩ | ⟨-, -, rfl⟩⟩ := enter_cases hquiet h
    · exact hentered .irq sends
    · exact hentered .exception sends

/-- A quiet step does some of the work, or is a poll that finds the FIFO in use. -/
theorem quiet_work {sent : List Byte} {s s' : System} {e : Event} (hinv : Inv sent s)
    (hs : Waits s) (hquiet : Quiet e) (h : s.step e = some s') : s' = s ∨ s'.work < s.work := by
  cases e with
  | poll other =>
    obtain ⟨c, cs, hctx, hrest, hready, ⟨-, rfl⟩ | ⟨-, rfl⟩⟩ := poll_eq_some h
    · right
      have hlen : 0 < c.rest.length := List.length_pos_iff.mpr hrest
      rw [work_cons hctx, work_cons rfl, Context.work, Context.work, hready]
      show 3 * c.rest.length - 1 + (cs.map Context.work).sum + s.uart.fifo.length + (cs.length + 1) <
        3 * c.rest.length - 0 + (cs.map Context.work).sum + s.uart.fifo.length + (cs.length + 1)
      omega
    · exact .inl rfl
  | write =>
    right
    have hroom := write_room hinv h
    obtain ⟨c, cs, b, rest, hctx, hrest, hready, rfl⟩ := write_eq_some h
    have hsent : outb data b s.uart = { s.uart with fifo := s.uart.fifo ++ [b] } :=
      hinv.configured.outb_data b (by omega)
    rw [work_cons hctx, work_cons rfl, Context.work, Context.work, hready, hrest, hsent]
    simp only [List.length_cons, List.length_append, List.length_nil, Bool.toNat_false,
      Bool.toNat_true]
    omega
  | drain =>
    right
    obtain ⟨b, fifo, hfifo, rfl⟩ := drain_step_eq_some h
    rw [System.work, System.work, hfifo, List.length_cons]
    show (s.contexts.map Context.work).sum + fifo.length + s.contexts.length <
      (s.contexts.map Context.work).sum + (fifo.length + 1) + s.contexts.length
    omega
  | finish =>
    right
    obtain ⟨c, cs, hctx, -, -, rfl⟩ := finish_eq_some h
    rw [work_cons hctx]
    show (cs.map Context.work).sum + s.uart.fifo.length + cs.length < _
    omega
  | interrupt sends => exact hquiet.elim
  | exception sends => exact hquiet.elim

/-- The thread is back from its calls, and the FIFO is empty. -/
theorem allSent_of_idle {sent : List Byte} {s : System} {c : Context} {cs : List Context}
    (hinv : Inv sent s) (hfifo : s.uart.fifo = []) (hctx : s.contexts = c :: cs)
    (hkind : c.kind = .thread) (hrest : c.rest = []) : AllSent sent s := by
  -- the thread is the last context
  have hlast : ∀ kinds ∈ nestings, kinds.head? = some .thread → kinds = [.thread] := by decide
  have hkinds := hinv.nested
  rw [System.kinds, hctx] at hkinds
  have halone := hlast _ hkinds (congrArg some hkind)
  obtain rfl : cs = [] := List.map_eq_nil_iff.mp (List.cons.inj halone).2
  have horder := hinv.order
  rw [hfifo, List.append_nil] at horder
  refine ⟨?_, horder, ?_⟩
  · rw [System.kinds, hctx]
    exact halone
  · intro i program hi
    by_cases hrun : i ∈ s.contexts.map Context.id
    · rw [hctx, List.map_cons, List.map_nil, List.mem_singleton] at hrun
      have hall := hinv.running c (hctx ▸ List.mem_cons_self)
      rw [hrest, List.append_nil, ← hrun] at hall
      exact Option.some.inj (hall.symm.trans hi)
    · exact hinv.finished i program hi hrun

/-- Until all has been sent, some quiet step does some of the work. -/
theorem exists_quiet {sent : List Byte} {s : System} (hinv : Inv sent s) (hs : Waits s)
    (hleft : ¬AllSent sent s) :
    ∃ e s', Quiet e ∧ s.step e = some s' ∧ s'.work < s.work := by
  -- a step that changes the state
  suffices hchange : ∃ e s', Quiet e ∧ s.step e = some s' ∧ s' ≠ s by
    obtain ⟨e, s', hquiet, hstep, hne⟩ := hchange
    exact ⟨e, s', hquiet, hstep, (quiet_work hinv hs hquiet hstep).resolve_left hne⟩
  cases hfifo : s.uart.fifo with
  | cons b fifo =>
    refine ⟨.drain, { s with uart := { s.uart with fifo := fifo, line := s.uart.line ++ [b] } },
      trivial, ?_, ?_⟩
    · rw [System.step, Uart.drain, hfifo]
      rfl
    · intro heq
      have hlen := congrArg (fun t : System => t.uart.fifo.length) heq
      simp only [hfifo, List.length_cons] at hlen
      omega
  | nil =>
    cases hctx : s.contexts with
    | nil =>
      have hnested := hinv.nested
      rw [System.kinds, hctx] at hnested
      exact absurd hnested (by decide)
    | cons c cs =>
      cases hrest : c.rest with
      | cons b rest =>
        cases hready : c.ready with
        | true =>
          refine ⟨.write, { s with
            uart := outb data b s.uart
            contexts := { c with rest := rest, ready := false } :: cs
            writes := s.writes ++ [(c.id, b)] }, trivial, ?_, ?_⟩
          · simp only [System.step, System.write, hctx, hrest, hready, if_true]
          · intro heq
            have hlen := congrArg (fun t : System => t.writes.length) heq
            simp only [List.length_append, List.length_singleton] at hlen
            omega
        | false =>
          have hbit : s.uart.lineStatus 0 &&& temtMask ≠ 0 := (lineStatus_bit s.uart 0).mpr hfifo
          refine ⟨.poll 0, { s with contexts := { c with ready := true } :: cs }, trivial, ?_, ?_⟩
          · simp only [System.step, System.poll, hctx, hrest, hready, reduceCtorEq,
              Bool.false_eq_true, or_self, if_false, if_pos hbit]
          · intro heq
            have hhead := congrArg System.contexts heq
            rw [hctx] at hhead
            have hsame : true = c.ready := congrArg Context.ready (List.cons.inj hhead).1
            exact absurd (hsame.trans hready).symm Bool.false_ne_true
      | nil =>
        by_cases hkind : c.kind = .thread
        · exact absurd (allSent_of_idle hinv hfifo hctx hkind hrest) hleft
        · refine ⟨.finish, { s with contexts := cs }, trivial, ?_, ?_⟩
          · simp only [System.step, System.finish, hctx, hrest, ne_eq, hkind, not_false_eq_true,
              and_self, if_true]
          · intro heq
            have hlen := congrArg (fun t : System => t.contexts.length) heq
            simp only [hctx, List.length_cons] at hlen
            omega

/-- How the sending goes on from a state without further interrupts. -/
structure Completes (sent : List Byte) (s : System) : Prop where
  /-- Each step does some of the work, but for polls that change nothing. -/
  lowers : ∀ e s', Quiet e → s.step e = some s' → s' = s ∨ s'.work < s.work
  /-- Where no step changes anything, all has been sent. -/
  stuck : (∀ e s', Quiet e → s.step e = some s' → s' = s) → AllSent sent s
  /-- The work is enough steps. -/
  enough : ∃ es t, (∀ e ∈ es, Quiet e) ∧ es.length ≤ s.work ∧ system.run s es = some t ∧
    AllSent sent t

theorem completes {sent : List Byte} {s : System} (hinv : Inv sent s) (hs : Waits s) :
    Completes sent s := by
  refine ⟨fun e s' => quiet_work hinv hs, ?_, ?_⟩
  · intro hstuck
    by_contra hleft
    obtain ⟨e, s', hquiet, hstep, hlt⟩ := exists_quiet hinv hs hleft
    rw [hstuck e s' hquiet hstep] at hlt
    exact Nat.lt_irrefl _ hlt
  · have hprogress : ∀ s, Inv sent s ∧ Waits s → ¬AllSent sent s → ∃ e s', Quiet e ∧
        system.step s e = some s' ∧ (Inv sent s' ∧ Waits s') ∧ s'.work < s.work := by
      intro s hs hleft
      obtain ⟨e, s', hquiet, hstep, hlt⟩ := exists_quiet hs.1 hs.2 hleft
      exact ⟨e, s', hquiet, hstep, ⟨step_inv hs.1 hstep, step_waits hs.2 hstep⟩, hlt⟩
    obtain ⟨es, t, hes, hlen, hrun, -, hsent⟩ :=
      Machine.exists_run_of_rank System.work hprogress ⟨hinv, hs⟩
    exact ⟨es, t, hes, hlen, hrun, hsent⟩

/-- A handler on its own comes to the end of its calls. -/
theorem handler_sends {sent : List Byte} {s : System} {c : Context} {cs : List Context}
    (hinv : Inv sent s) (hs : Waits s) (hctx : s.contexts = c :: cs) (hkind : c.kind ≠ .thread) :
    ∃ es t d, (∀ e ∈ es, Quiet e) ∧ system.run s es = some t ∧ t.contexts = d :: cs ∧
      d.id = c.id ∧ d.rest = [] := by
  have hprogress : ∀ s, (Inv sent s ∧ Waits s ∧
        ∃ d, s.contexts = d :: cs ∧ d.id = c.id ∧ d.kind = c.kind) →
      (¬∃ d, s.contexts = d :: cs ∧ d.id = c.id ∧ d.rest = []) → ∃ e s', Quiet e ∧
        system.step s e = some s' ∧ (Inv sent s' ∧ Waits s' ∧
          ∃ d, s'.contexts = d :: cs ∧ d.id = c.id ∧ d.kind = c.kind) ∧ s'.work < s.work := by
    rintro s ⟨hinv, hs, d, hctx, hid, hkind'⟩ hleft
    have hrest : d.rest ≠ [] := fun h => hleft ⟨d, hctx, hid, h⟩
    have hnot : ¬AllSent sent s := by
      intro h
      have halone := h.alone
      rw [System.kinds, hctx, List.map_cons] at halone
      exact hkind (hkind'.symm.trans (List.cons.inj halone).1)
    obtain ⟨e, s', hquiet, hstep, hlt⟩ := exists_quiet hinv hs hnot
    refine ⟨e, s', hquiet, hstep, ⟨step_inv hinv hstep, step_waits hs hstep, ?_⟩, hlt⟩
    cases e with
    | poll other =>
      obtain ⟨d', cs', hctx', -, -, ⟨-, rfl⟩ | ⟨-, rfl⟩⟩ := poll_eq_some hstep
      · obtain ⟨rfl, rfl⟩ := List.cons.inj (hctx'.symm.trans hctx)
        exact ⟨_, rfl, hid, hkind'⟩
      · exact ⟨d, hctx, hid, hkind'⟩
    | write =>
      obtain ⟨d', cs', b, rest, hctx', -, -, rfl⟩ := write_eq_some hstep
      obtain ⟨rfl, rfl⟩ := List.cons.inj (hctx'.symm.trans hctx)
      exact ⟨_, rfl, hid, hkind'⟩
    | drain =>
      obtain ⟨b, fifo, -, rfl⟩ := drain_step_eq_some hstep
      exact ⟨d, hctx, hid, hkind'⟩
    | finish =>
      obtain ⟨d', cs', hctx', -, hnil, rfl⟩ := finish_eq_some hstep
      obtain ⟨rfl, rfl⟩ := List.cons.inj (hctx'.symm.trans hctx)
      exact absurd hnil hrest
    | interrupt sends => exact hquiet.elim
    | exception sends => exact hquiet.elim
  obtain ⟨es, t, hes, -, hrun, -, d, hfinal⟩ :=
    Machine.exists_run_of_rank System.work hprogress ⟨hinv, hs, c, hctx, rfl, rfl⟩
  exact ⟨es, t, d, hes, hrun, hfinal⟩

theorem start_waits (u : Uart) (sends : List Send) : Waits (start u sends) := by
  intro c hc hready
  obtain rfl := List.mem_singleton.mp hc
  exact absurd hready Bool.false_ne_true

/-- **Sending ends.** Wherever the thread, the handlers and the line have got to: once no further
interrupt comes, no order of steps can go on for ever but by polling in vain, and none stops before
every call has been made in full and every byte has left. -/
theorem sends_complete (u : Uart) (sends : List Send) (events : List Event) :
    Completes u.line (start u sends) ∧
      system.Along (fun _ _ s' => Completes u.line s') (start u sends) events := by
  refine ⟨completes (start_inv u sends) (start_waits u sends), ?_⟩
  refine Machine.along_of_invariant (I := fun s => Inv u.line s ∧ Waits s) ?_
    ⟨start_inv u sends, start_waits u sends⟩ events
  intro s e s' hs hstep
  have hinv := step_inv hs.1 hstep
  have hwaits := step_waits hs.2 hstep
  exact ⟨⟨hinv, hwaits⟩, completes hinv hwaits⟩

/-- The thread has checked the status, and a handler's byte has been put into the FIFO since. -/
theorem sends_complete_stale : ∃ s,
    system.run (start resetUart [.dputc (ch '\n')]) (staleRun.take 5) =
      some s ∧ s.uart.fifo = [ch '!'] ∧ Completes [] s := by
  have hshown : (system.run (start resetUart [.dputc (ch '\n')])
      (staleRun.take 4)).map (fun s => (s.uart.fifo, (s.step .finish).isSome)) =
        some ([ch '!'], true) := by decide
  obtain ⟨s, hrun, hs⟩ := Option.map_eq_some_iff.mp hshown
  obtain ⟨hfifo, hsome⟩ := Prod.mk.inj hs
  obtain ⟨s', hstep⟩ := Option.isSome_iff_exists.mp hsome
  have hstep' : system.step s .finish = some s' := hstep
  have hall := (sends_complete resetUart [.dputc (ch '\n')] (staleRun.take 4 ++ [.finish])).2
  have hcompletes := Machine.along_step hall hrun hstep'
  refine ⟨s', ?_, ?_, hcompletes⟩
  · have hsplit : staleRun.take 5 = staleRun.take 4 ++ [.finish] := rfl
    rw [hsplit, Machine.run_append, hrun]
    exact Machine.run_cons hstep'
  · obtain ⟨c, cs, -, -, -, rfl⟩ := finish_eq_some hstep
    exact hfifo

/-! ### Nesting -/

/-- Since `k` first wrote, nothing below it has. -/
def OnTop (ids : List ℕ) (k : ℕ) : Prop :=
  ∀ before between, ids = before ++ k :: between → ∀ j ∈ between, k ≤ j

/-- The contexts that wrote, in order: between two bytes of one there are only its own and those of
contexts entered on top of it. -/
def WellNested (ids : List ℕ) : Prop :=
  ∀ before k after, ids = before ++ k :: after → OnTop before k

theorem concat_eq_append_cons {ids before after : List ℕ} {j k : ℕ}
    (h : ids ++ [j] = before ++ k :: after) :
    after = [] ∧ before = ids ∧ k = j ∨
      ∃ after', after = after' ++ [j] ∧ ids = before ++ k :: after' := by
  rcases List.eq_nil_or_concat after with rfl | ⟨after', x, rfl⟩
  · obtain ⟨rfl, hlast⟩ := List.append_inj' h rfl
    exact .inl ⟨rfl, rfl, (List.cons.inj hlast).1.symm⟩
  · rw [List.concat_eq_append, ← List.cons_append, ← List.append_assoc] at h
    obtain ⟨rfl, hlast⟩ := List.append_inj' h rfl
    rw [(List.cons.inj hlast).1]
    exact .inr ⟨after', List.concat_eq_append, rfl⟩

theorem onTop_concat {ids : List ℕ} {j k : ℕ} (h : OnTop ids k) (hle : k ≤ j) :
    OnTop (ids ++ [j]) k := by
  intro before between hids i hi
  rcases concat_eq_append_cons hids with ⟨rfl, -, -⟩ | ⟨between', rfl, hids'⟩
  · exact absurd hi List.not_mem_nil
  · rcases List.mem_append.mp hi with hi | hi
    · exact h before between' hids' i hi
    · obtain rfl := List.mem_singleton.mp hi
      exact hle

theorem wellNested_concat {ids : List ℕ} {k : ℕ} (h : WellNested ids) (hk : OnTop ids k) :
    WellNested (ids ++ [k]) := by
  intro before j after hids
  rcases concat_eq_append_cons hids with ⟨-, rfl, rfl⟩ | ⟨after', -, hids'⟩
  · exact hk
  · exact h before j after' hids'

/-- The contexts are numbered in the order of their entry, and none has been written under. -/
structure Nested (s : System) : Prop where
  decreasing : (s.contexts.map Context.id).Pairwise (· > ·)
  written : WellNested (s.writes.map Prod.fst)
  onTop : ∀ c ∈ s.contexts, OnTop (s.writes.map Prod.fst) c.id

theorem enter_nested {sent : List Byte} {s : System} (hinv : Inv sent s) (hs : Nested s)
    (kind : Kind) (sends : List Send) : Nested (s.enter kind sends) := by
  refine ⟨?_, hs.written, ?_⟩
  · refine List.pairwise_cons.mpr ⟨?_, hs.decreasing⟩
    intro i hi
    obtain ⟨c, hc, rfl⟩ := List.mem_map.mp hi
    exact (List.getElem?_eq_some_iff.mp (hinv.running c hc)).1
  · intro c hc
    rcases List.mem_cons.mp hc with rfl | hc
    · -- it has not written yet
      intro before between hids
      have hmem : s.programs.length ∈ s.writes.map Prod.fst :=
        hids ▸ List.mem_append_right _ List.mem_cons_self
      obtain ⟨w, hw, hid⟩ := List.mem_map.mp hmem
      exact absurd (hinv.fresh w hw) (hid ▸ Nat.lt_irrefl _)
    · exact hs.onTop c hc

theorem step_nested {sent : List Byte} {s s' : System} {e : Event} (hinv : Inv sent s)
    (hs : Nested s) (h : s.step e = some s') : Nested s' := by
  by_cases hquiet : Quiet e
  · cases e with
    | poll other =>
      obtain ⟨c, cs, hctx, -, -, ⟨-, rfl⟩ | ⟨-, rfl⟩⟩ := poll_eq_some h
      · have hdecreasing := hs.decreasing
        rw [hctx] at hdecreasing
        refine ⟨hdecreasing, hs.written, ?_⟩
        intro d hd
        rcases List.mem_cons.mp hd with rfl | hd
        · exact hs.onTop c (hctx ▸ List.mem_cons_self)
        · exact hs.onTop d (hctx ▸ List.mem_cons_of_mem c hd)
      · exact hs
    | write =>
      obtain ⟨c, cs, b, rest, hctx, -, -, rfl⟩ := write_eq_some h
      have hdecreasing := hs.decreasing
      rw [hctx] at hdecreasing
      have hids : (s.writes ++ [(c.id, b)]).map Prod.fst = s.writes.map Prod.fst ++ [c.id] :=
        List.map_append
      have hown := hs.onTop c (hctx ▸ List.mem_cons_self)
      refine ⟨hdecreasing, ?_, ?_⟩
      · show WellNested ((s.writes ++ [(c.id, b)]).map Prod.fst)
        rw [hids]
        exact wellNested_concat hs.written hown
      · intro d hd
        show OnTop ((s.writes ++ [(c.id, b)]).map Prod.fst) d.id
        rw [hids]
        rcases List.mem_cons.mp hd with rfl | hd
        · exact onTop_concat hown (Nat.le_refl _)
        · have hbelow := (List.pairwise_cons.mp hdecreasing).1 d.id (List.mem_map_of_mem hd)
          exact onTop_concat (hs.onTop d (hctx ▸ List.mem_cons_of_mem c hd)) (Nat.le_of_lt hbelow)
    | drain =>
      obtain ⟨b, fifo, -, rfl⟩ := drain_step_eq_some h
      exact ⟨hs.decreasing, hs.written, hs.onTop⟩
    | finish =>
      obtain ⟨c, cs, hctx, -, -, rfl⟩ := finish_eq_some h
      have hdecreasing := hs.decreasing
      rw [hctx] at hdecreasing
      exact ⟨(List.pairwise_cons.mp hdecreasing).2, hs.written,
        fun d hd => hs.onTop d (hctx ▸ List.mem_cons_of_mem c hd)⟩
    | interrupt sends => exact hquiet.elim
    | exception sends => exact hquiet.elim
  · obtain ⟨sends, ⟨-, -, rfl⟩ | ⟨-, -, rfl⟩⟩ := enter_cases hquiet h
    · exact enter_nested hinv hs .irq sends
    · exact enter_nested hinv hs .exception sends

/-- **Messages are nested on the line** as the handlers that send them are: whatever comes between
two bytes of one context was sent by contexts entered on top of it. -/
theorem messages_nest (u : Uart) (sends : List Send) (events : List Event) :
    system.Along (fun _ _ s' => WellNested (s'.writes.map Prod.fst)) (start u sends) events := by
  refine Machine.along_of_invariant (I := fun s => Inv u.line s ∧ Nested s) ?_ ?_ events
  · intro s e s' hs hstep
    have hnested := step_nested hs.1 hs.2 hstep
    exact ⟨⟨step_inv hs.1 hstep, hnested⟩, hnested.written⟩
  · have hnil : ∀ before after (k : ℕ), ([] : List ℕ) ≠ before ++ k :: after :=
      fun before after k =>
        (List.append_ne_nil_of_right_ne_nil before (List.cons_ne_nil k after)).symm
    refine ⟨start_inv u sends, List.pairwise_singleton _ _, ?_, ?_⟩
    · exact fun before k after h => absurd h (hnil before after k)
    · exact fun c _ before between h => absurd h (hnil before between c.id)

/-! ### Exceptions -/

/-- Since the exception `i` was entered, when `pre` had been written: what it writes is one block. -/
structure Unbroken (i : ℕ) (program : List Byte) (pre : List (ℕ × Byte)) (t : System) : Prop where
  prior : ∀ w ∈ pre, w.1 ≠ i
  program : t.programs[i]? = some program
  block : ∃ (own : List Byte) (later : List (ℕ × Byte)),
    t.writes = pre ++ (own.map (i, ·) ++ later) ∧ (∀ w ∈ later, w.1 ≠ i) ∧
    (i ∈ t.contexts.map Context.id → later = [] ∧
      ∃ c cs, t.contexts = c :: cs ∧ c.id = i ∧ c.kind = .exception)

theorem enter_unbroken {s : System} {i : ℕ} {program : List Byte} {pre : List (ℕ × Byte)}
    (hs : Unbroken i program pre s) (kind : Kind) (sends : List Send)
    (hfree : Kind.exception ∉ s.kinds) : Unbroken i program pre (s.enter kind sends) := by
  obtain ⟨own, later, hwrites, hlater, htop⟩ := hs.block
  have hknown := (List.getElem?_eq_some_iff.mp hs.program).1
  refine ⟨hs.prior, (List.getElem?_append_left hknown).trans hs.program, own, later, hwrites,
    hlater, ?_⟩
  intro hi
  rcases List.mem_cons.mp hi with heq | hi
  · exact absurd hknown (heq ▸ Nat.lt_irrefl _)
  · obtain ⟨-, c, cs, hctx, -, hkind⟩ := htop hi
    refine absurd ?_ hfree
    rw [System.kinds, hctx, List.map_cons, hkind]
    exact List.mem_cons_self

theorem step_unbroken {sent : List Byte} {s s' : System} {e : Event} {i : ℕ} {program : List Byte}
    {pre : List (ℕ × Byte)} (hinv : Inv sent s) (hs : Unbroken i program pre s)
    (h : s.step e = some s') : Unbroken i program pre s' := by
  obtain ⟨own, later, hwrites, hlater, htop⟩ := hs.block
  by_cases hquiet : Quiet e
  · cases e with
    | poll other =>
      obtain ⟨c, cs, hctx, -, -, ⟨-, rfl⟩ | ⟨-, rfl⟩⟩ := poll_eq_some h
      · refine ⟨hs.prior, hs.program, own, later, hwrites, hlater, ?_⟩
        intro hi
        rw [hctx] at htop
        obtain ⟨hnil, d, ds, hds, hid, hkind⟩ := htop hi
        obtain ⟨rfl, rfl⟩ := List.cons.inj hds
        exact ⟨hnil, _, _, rfl, hid, hkind⟩
      · exact hs
    | write =>
      obtain ⟨c, cs, b, rest, hctx, -, -, rfl⟩ := write_eq_some h
      rw [hctx] at htop
      by_cases hi : i ∈ (c :: cs).map Context.id
      · obtain ⟨rfl, d, ds, hds, hid, hkind⟩ := htop hi
        obtain ⟨rfl, rfl⟩ := List.cons.inj hds
        refine ⟨hs.prior, hs.program, own ++ [b], [], ?_, fun w hw => absurd hw List.not_mem_nil,
          fun _ => ⟨rfl, _, _, rfl, hid, hkind⟩⟩
        show s.writes ++ [(c.id, b)] = _
        rw [hwrites, hid, List.map_append]
        simp only [List.append_nil, List.append_assoc, List.map_cons, List.map_nil]
      · have hne : c.id ≠ i := fun heq => hi (heq ▸ List.mem_cons_self)
        refine ⟨hs.prior, hs.program, own, later ++ [(c.id, b)], ?_, ?_, fun hi' => absurd hi' hi⟩
        · show s.writes ++ [(c.id, b)] = _
          rw [hwrites, List.append_assoc, List.append_assoc]
        · intro w hw
          rcases List.mem_append.mp hw with hw | hw
          · exact hlater w hw
          · obtain rfl := List.mem_singleton.mp hw
            exact hne
    | drain =>
      obtain ⟨b, fifo, -, rfl⟩ := drain_step_eq_some h
      exact ⟨hs.prior, hs.program, own, later, hwrites, hlater, htop⟩
    | finish =>
      obtain ⟨c, cs, hctx, -, -, rfl⟩ := finish_eq_some h
      have hdistinct := hinv.distinct
      rw [hctx] at htop hdistinct
      refine ⟨hs.prior, hs.program, own, later, hwrites, hlater, ?_⟩
      -- only the exception itself can have returned
      intro hi
      obtain ⟨-, d, ds, hds, hid, -⟩ := htop (List.mem_cons_of_mem _ hi)
      obtain ⟨rfl, rfl⟩ := List.cons.inj hds
      exact absurd (hid ▸ hi) (List.nodup_cons.mp hdistinct).1
    | interrupt sends => exact hquiet.elim
    | exception sends => exact hquiet.elim
  · obtain ⟨sends, ⟨-, halone, rfl⟩ | ⟨-, hnone, rfl⟩⟩ := enter_cases hquiet h
    · exact enter_unbroken hs .irq sends (by rw [halone]; decide)
    · exact enter_unbroken hs .exception sends hnone

/-- All that has been written, in order: what has left on the line, and what the FIFO holds. -/
def System.bytes (s : System) : List Byte := s.uart.line ++ s.uart.fifo

/-- What the host makes of the bytes: it drops the CR in front of each LF. -/
def fromWire (bytes : List Byte) : List Byte := collapse (ch '\r') (ch '\n') bytes

theorem fromWire_append_toWire (bytes text : List Byte) :
    fromWire (bytes ++ toWire text) = fromWire bytes ++ text :=
  collapse_append_expand (by decide) bytes text

/-- The calls of `dputc` for a text. -/
theorem bytes_dputc (text : List Byte) : (text.map Send.dputc).flatMap Send.bytes = toWire text := by
  rw [toWire, expand, List.flatMap_map]
  congr 1
  funext c
  rw [Send.bytes, Log.dputc]
  split <;> rfl

/-- What the line carries in `t` when an exception was taken in `s` whose handler sends the text. -/
structure Follows (s : System) (text : List Byte) (t : System) : Prop where
  /-- A part of the message and nothing else, or the message and what was written later. -/
  unbroken : (∃ part, part <+: toWire text ∧ t.bytes = s.bytes ++ part) ∨
    ∃ later, t.bytes = s.bytes ++ (toWire text ++ later)
  /-- When the handler has sent it all, the host reads the text behind what it had. -/
  received : ∀ c ∈ t.contexts, c.id = s.programs.length → c.rest = [] →
    fromWire t.bytes = fromWire s.bytes ++ text

theorem Unbroken.follows {sent : List Byte} {s t : System} {text : List Byte} (hs : Inv sent s)
    (ht : Inv sent t) (h : Unbroken s.programs.length (toWire text) s.writes t) :
    Follows s text t := by
  obtain ⟨own, later, hwrites, hlater, htop⟩ := h.block
  have hbytes : t.bytes = s.bytes ++ (own ++ later.map Prod.snd) := by
    rw [System.bytes, System.bytes, ht.order, hs.order, hwrites, List.map_append, List.map_append,
      List.map_map, List.append_assoc]
    congr 2
    congr 1
    exact List.map_id own
  have hown : writtenBy t.writes s.programs.length = own := by
    have hprior : s.writes.filter (fun w => w.1 = s.programs.length) = [] :=
      List.filter_eq_nil_iff.mpr fun w hw => by simpa using h.prior w hw
    have hlater' : later.filter (fun w => w.1 = s.programs.length) = [] :=
      List.filter_eq_nil_iff.mpr fun w hw => by simpa using hlater w hw
    have hblock : (own.map (s.programs.length, ·)).filter (fun w => w.1 = s.programs.length) =
        own.map (s.programs.length, ·) := by
      rw [List.filter_eq_self]
      intro w hw
      obtain ⟨b, -, rfl⟩ := List.mem_map.mp hw
      exact decide_eq_true rfl
    rw [writtenBy, hwrites, List.filter_append, List.filter_append, hprior, hlater', hblock,
      List.nil_append, List.append_nil, List.map_map]
    exact List.map_id own
  have hbegun := ht.writtenBy_prefix h.program
  have hdone := ht.finished _ _ h.program
  rw [hown] at hbegun hdone
  constructor
  · by_cases hi : s.programs.length ∈ t.contexts.map Context.id
    · obtain ⟨rfl, -⟩ := htop hi
      exact .inl ⟨own, hbegun, by simpa using hbytes⟩
    · rw [hdone hi] at hbytes
      exact .inr ⟨_, hbytes⟩
  · intro c hc hid hrest
    obtain ⟨rfl, -⟩ := htop (hid ▸ List.mem_map_of_mem hc)
    have hall := ht.running c hc
    rw [hid, h.program, hown, hrest, List.append_nil] at hall
    rw [hbytes, ← Option.some.inj hall, List.map_nil, List.append_nil]
    exact fromWire_append_toWire s.bytes text

/-- A run from the entry of an exception. -/
theorem exception_follows {sent text : List Byte} {s s' t : System} {sends : List Send}
    {events : List Event} (hinv : Inv sent s) (hsends : sends.flatMap Send.bytes = toWire text)
    (hstep : s.step (.exception sends) = some s') (hrun : system.run s' events = some t) :
    Follows s text t := by
  have hinv' := step_inv hinv hstep
  have hentered : Unbroken s.programs.length (toWire text) s.writes s' := by
    have hloud : ¬Quiet (.exception sends) := fun h => h
    obtain ⟨sends', ⟨heq, -⟩ | ⟨heq, -, rfl⟩⟩ := enter_cases hloud hstep
    · exact Event.noConfusion heq
    obtain rfl := Event.exception.inj heq
    refine ⟨fun w hw => Nat.ne_of_lt (hinv.fresh w hw), ?_, [], [], ?_, ?_, ?_⟩
    · show (s.programs ++ [_])[s.programs.length]? = _
      rw [List.getElem?_concat_length, hsends]
    · exact (List.append_nil _).symm
    · exact fun w hw => absurd hw List.not_mem_nil
    · exact fun _ => ⟨rfl, _, _, rfl, rfl, rfl⟩
  obtain ⟨hlast, hunbroken⟩ := Machine.run_invariant
    (I := fun t => Inv sent t ∧ Unbroken s.programs.length (toWire text) s.writes t)
    (fun t e t' ht hstep => ⟨step_inv ht.1 hstep, step_unbroken ht.1 ht.2 hstep⟩)
    ⟨hinv', hentered⟩ hrun
  exact hunbroken.follows hinv hlast

/-- **The message of an exception is one block** on the line, whatever it interrupts and however the
run goes on, in which no exception comes inside its handler; and when it has been sent, the host
reads it behind what was sent before. -/
theorem exception_message (u : Uart) (sends : List Send) (events : List Event) :
    system.Along (fun s e s' => ∀ text sends', sends'.flatMap Send.bytes = toWire text →
        e = .exception sends' → ∀ events' t, system.run s' events' = some t → Follows s text t)
      (start u sends) events := by
  refine Machine.along_of_invariant (I := Inv u.line) ?_ (start_inv u sends) events
  intro s e s' hinv hstep
  refine ⟨step_inv hinv hstep, ?_⟩
  rintro text sends' hsends rfl events' t hrun
  exact exception_follows hinv hsends hstep hrun

/-- A handler that reports what it is for, taken between the check and the write of the thread. -/
def trapRun : List Event :=
  [.poll 0, .write, .drain, .poll 0, .write, .drain, .poll 0, .write]

/-- The first byte of the thread waits, and the host reads the handler's line. -/
theorem exception_message_trap : ∃ s s' t,
    system.run (start resetUart [.send (ch 'a')]) [.poll 0] = some s ∧
      system.step s (.exception ("!\n".toList.map fun c => .dputc (ch c))) = some s' ∧
      system.run s' trapRun = some t ∧ fromWire t.bytes = "!\n".toList.map ch := by
  have hshown : ((system.run (start resetUart [.send (ch 'a')])
      [.poll 0]).bind fun s => (system.step s (.exception
        ("!\n".toList.map fun c => .dputc (ch c)))).bind fun s' =>
          (system.run s' trapRun).map fun t =>
            (s.programs.length, s.bytes, t.contexts.head?.map fun c => (c.id, c.rest))) =
      some (1, [], some (1, [])) := by decide
  obtain ⟨s, hrun, hshown⟩ := Option.bind_eq_some_iff.mp hshown
  obtain ⟨s', hstep, hshown⟩ := Option.bind_eq_some_iff.mp hshown
  obtain ⟨t, hrun', hs⟩ := Option.map_eq_some_iff.mp hshown
  obtain ⟨hid, hs⟩ := Prod.mk.inj hs
  obtain ⟨hbytes, hhead⟩ := Prod.mk.inj hs
  obtain ⟨c, hc, hlast⟩ := Option.map_eq_some_iff.mp hhead
  obtain ⟨hcid, hrest⟩ := Prod.mk.inj hlast
  have hall := exception_message resetUart [.send (ch 'a')]
    ([.poll 0] ++ [.exception ("!\n".toList.map fun c => .dputc (ch c))])
  have hfollows := Machine.along_step hall hrun hstep _ _ (bytes_dputc ("!\n".toList.map ch)) rfl
    trapRun t hrun'
  refine ⟨s, s', t, hrun, hstep, hrun', ?_⟩
  rw [hfollows.received c (List.mem_of_mem_head? hc) (hcid.trans hid.symm) hrest, hbytes]
  rfl

/-! ### Messages -/

/-- A format with its arguments, and the text they denote, printed by `kprintf` or `dprintf`. -/
structure Message where
  family : Family
  items : List RawItem
  args : List Arg
  text : List Byte
  left : List Arg
  negatable : negatable items args = true
  denotes : meaning items args = some (text, left)

def Message.call (m : Message) : Call :=
  match m.family with
  | .kernel => .kprintf (rawBytes m.items ++ [0]) m.args
  | .host => .dprintf (rawBytes m.items ++ [0]) m.args

/-- The text without NULs. -/
def Message.shown (m : Message) : List Byte := m.text.filter (· ≠ 0)

/-- The texts for the host. -/
def forHost (ms : List Message) : List Byte :=
  ms.flatMap fun m => if m.family = .host then m.shown else []

/-- The calls of `dputc` in the steps of the log, from a value of `use_serial` on. -/
def sendsOf : Bool → List Op → List Send
  | _, [] => []
  | _, .setSerial b :: ops => sendsOf b ops
  | useSerial, .putchar _ c :: ops =>
    if useSerial then .dputc c :: sendsOf useSerial ops else sendsOf useSerial ops
  | useSerial, .kputc _ :: ops => sendsOf useSerial ops
  | _, .halt :: _ => []

theorem Message.run_call (m : Message) :
    m.call.run = some (countOf m.text, callShape m.family m.shown) := by
  have hprint := (prints_rawBytes ((meaning_eq m.negatable).symm.trans m.denotes)).printf
  obtain ⟨family, items, args, text, left, hneg, hdenotes⟩ := m
  cases family with
  | kernel => exact hprint .kernel
  | host =>
    show onSerial (printfFor .host (rawBytes items ++ [0]) args) = _
    rw [hprint]
    rfl

theorem callSteps_call (ms : List Message) :
    callSteps (ms.map Message.call) = some (messages (ms.map fun m => (m.family, m.shown))) := by
  induction ms with
  | nil => rfl
  | cons m ms ih =>
    simp only [List.map_cons, callSteps, m.run_call, ih, Option.bind_eq_bind, Option.bind_some]
    rfl

theorem sendsOf_chars (f : Family) (text : List Byte) (useSerial : Bool) (ops : List Op) :
    sendsOf useSerial (chars f text ++ ops) =
      (if useSerial then text.map .dputc else []) ++ sendsOf useSerial ops := by
  induction text with
  | nil => cases useSerial <;> rfl
  | cons c text ih =>
    have hcons : chars f (c :: text) ++ ops = .putchar f c :: (chars f text ++ ops) := rfl
    rw [hcons, sendsOf, ih]
    cases useSerial <;> rfl

theorem sendsOf_messages (ms : List Message) :
    sendsOf false (messages (ms.map fun m => (m.family, m.shown))) =
      (forHost ms).map .dputc := by
  induction ms with
  | nil => rfl
  | cons m ms ih =>
    have hcons : messages ((m :: ms).map fun m => (m.family, m.shown)) =
        callShape m.family m.shown ++ messages (ms.map fun m => (m.family, m.shown)) := rfl
    rw [hcons, forHost, List.flatMap_cons, List.map_append]
    change _ = _ ++ (forHost ms).map Send.dputc
    rw [← ih]
    cases hfamily : m.family with
    | kernel => exact sendsOf_chars .kernel m.shown false _
    | host =>
      show sendsOf true ((chars .host m.shown ++ [.setSerial false]) ++ _) = _
      rw [List.append_assoc, sendsOf_chars]
      rfl

/-- Handlers that make no calls to serial. -/
def Silent : Event → Prop
  | .interrupt sends => sends = []
  | .exception sends => sends = []
  | _ => True

/-- The thread alone has something to send. -/
def Alone (program : List Byte) (s : System) : Prop :=
  ∃ k, s.programs = program :: List.replicate k []

/-- Silent events add empty programs. -/
theorem run_alone {s t : System} {events : List Event} {program : List Byte}
    (hs : Alone program s) (hsilent : ∀ e ∈ events, Silent e)
    (hrun : system.run s events = some t) : Alone program t := by
  have hempty : ∀ l ∈ (events.filterMap Event.sends).map (List.flatMap Send.bytes), l = [] := by
    intro l hl
    obtain ⟨sends, hmem, rfl⟩ := List.mem_map.mp hl
    obtain ⟨e, he, hsends⟩ := List.mem_filterMap.mp hmem
    have hnone := hsilent e he
    cases e with
    | interrupt calls =>
      obtain rfl := Option.some.inj hsends
      obtain rfl := hnone
      rfl
    | exception calls =>
      obtain rfl := Option.some.inj hsends
      obtain rfl := hnone
      rfl
    | _ => exact absurd hsends.symm (Option.some_ne_none _)
  obtain ⟨k, hk⟩ := hs
  refine ⟨k + (events.filterMap Event.sends).length, ?_⟩
  rw [run_programs hrun, hk, List.eq_replicate_of_mem hempty, List.length_map, List.cons_append,
    ← List.replicate_add]

/-- All that is written is the thread's. -/
theorem Alone.writes {sent program : List Byte} {s : System} (hs : Alone program s)
    (hinv : Inv sent s) : s.writes.map Prod.snd = writtenBy s.writes 0 := by
  obtain ⟨k, hk⟩ := hs
  rw [writtenBy, List.filter_eq_self.mpr]
  intro w hw
  rw [decide_eq_true_eq]
  by_contra hne
  obtain ⟨i, hi⟩ := Nat.exists_eq_succ_of_ne_zero hne
  have hprogram : s.programs[w.1]? = some [] := by
    have hlt := hinv.fresh w hw
    rw [hk, hi, List.length_cons, List.length_replicate] at hlt
    rw [hk, hi, List.getElem?_cons_succ, List.getElem?_replicate, if_pos (by omega)]
  have hnil := List.prefix_nil.mp (hinv.writtenBy_prefix hprogram)
  rw [writtenBy, List.map_eq_nil_iff, List.filter_eq_nil_iff] at hnil
  exact hnil w hw (decide_eq_true rfl)

/-- **What is printed is read.** The host gets the texts of the formats for it, in order and nothing
else, whatever is printed to the terminal in between and however the line and handlers that send
nothing interleave: a part of them at any time, all of them in the end. -/
theorem messages_received (u : Uart) (ms : List Message) :
    ∃ ops, callSteps (ms.map Message.call) = some ops ∧
      ∀ events s, (∀ e ∈ events, Silent e) →
        system.run (start u (sendsOf false ops)) events = some s →
        s.bytes <+: u.line ++ toWire (forHost ms) ∧
          (AllSent u.line s → fromWire s.uart.line = fromWire u.line ++ forHost ms) := by
  refine ⟨_, callSteps_call ms, ?_⟩
  rw [sendsOf_messages]
  intro events s hsilent hrun
  have hinv : Inv u.line s := Machine.run_invariant (I := Inv u.line)
    (fun s e s' h hstep => step_inv h hstep) (start_inv u _) hrun
  have hstart : Alone (toWire (forHost ms)) (start u ((forHost ms).map .dputc)) :=
    ⟨0, congrArg (fun program => [program]) (bytes_dputc (forHost ms))⟩
  have halone : Alone (toWire (forHost ms)) s := run_alone hstart hsilent hrun
  have hwrites := halone.writes hinv
  obtain ⟨k, hk⟩ := halone
  have hown : s.programs[0]? = some (toWire (forHost ms)) := by
    rw [hk]
    rfl
  constructor
  · rw [System.bytes, hinv.order, hwrites]
    exact (List.prefix_append_right_inj _).mpr (hinv.writtenBy_prefix hown)
  · intro hsent
    rw [hsent.line, hwrites, hsent.own 0 _ hown]
    exact fromWire_append_toWire u.line (forHost ms)

/-- `%d` of 12 for the host, and of 7 for the terminal. -/
def twoMessages : List Message :=
  [⟨.host, [rawDecimal], [⟨12, []⟩], "12".toList.map ch, [], by decide, by decide +kernel⟩,
    ⟨.kernel, [rawDecimal], [⟨7, []⟩], "7".toList.map ch, [], by decide, by decide +kernel⟩]

/-- A silent handler runs between the check and the write. -/
def silentRun : List Event :=
  [.poll 0, .interrupt [], .finish, .write, .drain, .poll 0, .write, .drain]

theorem messages_received_numbers : ∃ ops s,
    callSteps (twoMessages.map Message.call) = some ops ∧
      system.run (start resetUart (sendsOf false ops)) silentRun = some s ∧
      fromWire s.uart.line = "12".toList.map ch := by
  obtain ⟨ops, hcalls, hread⟩ := messages_received resetUart twoMessages
  have hsends : sendsOf false ops = [.dputc (ch '1'), .dputc (ch '2')] := by
    rw [Option.some.inj (hcalls.symm.trans (callSteps_call twoMessages)), sendsOf_messages]
    rfl
  have hshown : (system.run (start resetUart (sendsOf false ops))
      silentRun).map (fun s => (s.uart.fifo, s.contexts.map fun c => (c.kind, c.rest))) =
        some ([], [(.thread, [])]) := by
    rw [hsends]
    decide
  obtain ⟨s, hrun, hs⟩ := Option.map_eq_some_iff.mp hshown
  obtain ⟨hfifo, hcontexts⟩ := Prod.mk.inj hs
  obtain ⟨c, cs, hctx, hc, -⟩ := List.map_eq_cons_iff.mp hcontexts
  obtain ⟨hkind, hrest⟩ := Prod.mk.inj hc
  have hinv : Inv [] s := Machine.run_invariant (I := Inv [])
    (fun s e s' h hstep => step_inv h hstep) (start_inv resetUart _) hrun
  have hsilent : ∀ e ∈ silentRun, Silent e := by simp [silentRun, Silent]
  have hsent := allSent_of_idle hinv hfifo hctx hkind hrest
  exact ⟨ops, s, hcalls, hrun, (hread silentRun s hsilent hrun).2 hsent⟩

end MegaOS.Serial
