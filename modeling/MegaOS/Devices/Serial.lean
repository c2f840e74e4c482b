import MegaOS.Foundation.Runs
import MegaOS.Foundation.Uart16550
import MegaOS.Log.Console

/-!
# The serial line

`serial::init` and `serial::send`. A send waits until the status register says
that the transmit FIFO is empty, and writes; in between, an interrupt handler may
send as well. What saves the FIFO is that few contexts can have checked and not
written yet: the thread, an interrupt handler on top of it, and an exception on
top of that.
-/

namespace MegaOS.Serial

open MegaOS.Memory MegaOS.Log MegaOS.Runs MegaOS.Uart16550

/-! ### Registers -/

def temtMask : Byte := 1 <<< 5

/-- `COM1`, the first port. -/
def com1 : BitVec 16 := 0x3F8

/-- `serial::regs`; the divisor is written through the first two. -/
def data : BitVec 16 := com1 + 0
def inte : BitVec 16 := com1 + 1
def divl : BitVec 16 := com1 + 0
def divh : BitVec 16 := com1 + 1
def inti : BitVec 16 := com1 + 2
def lineCr : BitVec 16 := com1 + 3
def modmCr : BitVec 16 := com1 + 4

/-- `cpu::io::outb`, to one of the ports of the controller. -/
def outb (port : BitVec 16) (v : Byte) (u : Uart) : Uart := u.outb (port - com1) v

/-- `serial::test` -/
def test (u : Uart) : Bool × Uart :=
  let u := outb modmCr 0x1E u
  let u := outb data 0xAE u
  let echo := u.readData.1
  let u := u.readData.2
  if echo ≠ 0xAE then (false, u) else (true, outb modmCr 0x0F u)

/-- `serial::init` -/
def init (u : Uart) : Bool × Uart :=
  let u := outb inte 0x00 u
  let u := outb lineCr 0x80 u
  let u := outb divl 0x03 u
  let u := outb divh 0x00 u
  let u := outb lineCr 0x03 u
  let u := outb inti 0xC7 u
  let u := outb modmCr 0x0B u
  test u

/-- **Initialization** finds the echo and leaves the transmitter ready, its FIFO empty. -/
theorem init_configured (u : Uart) : (init u).1 = true ∧ (init u).2.Configured ∧
    (init u).2.fifo = [] ∧ (init u).2.line = u.line := by
  -- the first write goes to one of two registers
  obtain ⟨i, h, hfirst⟩ : ∃ i h, outb inte 0x00 u = { u with inte := i, divh := h } := by
    cases hdlab : u.dlab with
    | false => exact ⟨0x00, u.divh, by simp [outb, inte, Uart.outb, hdlab]⟩
    | true => exact ⟨u.inte, 0x00, by simp [outb, inte, Uart.outb, hdlab]⟩
  have hinit : init u = (true, { u with
      inte := i, divl := 0x03, divh := 0x00, fcr := 0xC7, lcr := 0x03, mcr := 0x0F,
      received := [], fifo := [] }) := by
    rw [init, hfirst]
    simp [test, outb, Uart.outb, Uart.transmit, Uart.control, Uart.readData, Uart.dlab,
      Uart.loopback, lineCr, divl, divh, inti, modmCr, data, com1]
  rw [hinit]
  exact ⟨rfl, ⟨by simp [Uart.dlab], by simp [Uart.loopback], by simp [Uart.capacity]⟩, rfl, rfl⟩

/-! ### Contexts -/

/-- A call of `serial::send`, or of `dputc`. -/
inductive Send
  | send (c : Byte)
  | dputc (c : Byte)

/-- The bytes of a call: `dputc` sends a CR in front of each LF. -/
def Send.bytes : Send → List Byte
  | .send c => [c]
  | .dputc c => (Log.dputc .host c).map Emission.byte

inductive Kind
  | thread
  | irq
  | exception
  deriving DecidableEq

/-- What sends: the bytes it has still to write, and whether it is between the end of the wait loop
and the data write. -/
structure Context where
  id : ℕ
  kind : Kind
  rest : List Byte
  ready : Bool

structure System where
  uart : Uart
  /-- The running context first, the thread last. -/
  contexts : List Context
  /-- The bytes each context has to send, contexts that have finished included. -/
  programs : List (List Byte)
  /-- The data writes in order, with the context that made them. -/
  writes : List (ℕ × Byte)

inductive Event
  /-- The running context reads the line status, whose other bits are arbitrary. -/
  | poll (other : Byte)
  /-- The running context writes a byte. -/
  | write
  /-- A byte leaves on the line. -/
  | drain
  /-- An interrupt whose handler makes these calls. -/
  | interrupt (sends : List Send)
  /-- An exception whose handler makes these calls. -/
  | exception (sends : List Send)
  /-- The running handler returns. -/
  | finish

/-- `while (!(inb(LINE_SR) & TEMT_MASK));`, one round. -/
def System.poll (s : System) (other : Byte) : Option System :=
  match s.contexts with
  | [] => none
  | c :: cs =>
    if c.rest = [] ∨ c.ready then none
    else if s.uart.lineStatus other &&& temtMask ≠ 0 then
      some { s with contexts := { c with ready := true } :: cs }
    else some s

/-- `outb(DATA, c);` -/
def System.write (s : System) : Option System :=
  match s.contexts with
  | [] => none
  | c :: cs =>
    match c.rest with
    | [] => none
    | b :: rest =>
      if c.ready then
        some { s with
          uart := outb data b s.uart
          contexts := { c with rest := rest, ready := false } :: cs
          writes := s.writes ++ [(c.id, b)] }
      else none

/-- A handler is entered. -/
def System.enter (s : System) (kind : Kind) (sends : List Send) : System :=
  { s with
    contexts := ⟨s.programs.length, kind, sends.flatMap Send.bytes, false⟩ :: s.contexts
    programs := s.programs ++ [sends.flatMap Send.bytes] }

/-- A handler that has made all its calls returns. -/
def System.finish (s : System) : Option System :=
  match s.contexts with
  | [] => none
  | c :: cs => if c.kind ≠ .thread ∧ c.rest = [] then some { s with contexts := cs } else none

def System.kinds (s : System) : List Kind := s.contexts.map Context.kind

/-- Handlers do not enable interrupts again, so an interrupt is taken in the thread alone; and one
exception is nested at most. -/
def System.step (s : System) : Event → Option System
  | .poll other => s.poll other
  | .write => s.write
  | .drain => s.uart.drain.map fun u => { s with uart := u }
  | .interrupt sends => if s.kinds = [.thread] then some (s.enter .irq sends) else none
  | .exception sends =>
    if Kind.exception ∉ s.kinds then some (s.enter .exception sends) else none
  | .finish => s.finish

def system : Machine System Event := ⟨System.step⟩

/-- The thread is about to make its calls, and the controller has been initialized. -/
def start (u : Uart) (sends : List Send) : System :=
  ⟨(init u).2, [⟨0, .thread, sends.flatMap Send.bytes, false⟩], [sends.flatMap Send.bytes], []⟩

/-! ### What a step does -/

theorem poll_eq_some {s s' : System} {other : Byte} (h : s.poll other = some s') :
    ∃ c cs, s.contexts = c :: cs ∧ c.rest ≠ [] ∧ c.ready = false ∧
      (s.uart.fifo = [] ∧ s' = { s with contexts := { c with ready := true } :: cs } ∨
        s.uart.fifo ≠ [] ∧ s' = s) := by
  rw [System.poll] at h
  split at h
  · exact absurd h.symm (Option.some_ne_none _)
  rename_i c cs hctx
  split at h
  · exact absurd h.symm (Option.some_ne_none _)
  rename_i hwaiting
  obtain ⟨hrest, hready⟩ := not_or.mp hwaiting
  refine ⟨c, cs, hctx, hrest, eq_false_of_ne_true hready, ?_⟩
  split at h
  · rename_i hbit
    exact .inl ⟨(lineStatus_bit s.uart other).mp hbit, (Option.some.inj h).symm⟩
  · rename_i hbit
    exact .inr ⟨fun hfifo => hbit ((lineStatus_bit s.uart other).mpr hfifo),
      (Option.some.inj h).symm⟩

theorem write_eq_some {s s' : System} (hstep : s.write = some s') :
    ∃ c cs b rest, s.contexts = c :: cs ∧ c.rest = b :: rest ∧ c.ready = true ∧
      s' = { s with
        uart := outb data b s.uart
        contexts := { c with rest := rest, ready := false } :: cs
        writes := s.writes ++ [(c.id, b)] } := by
  rw [System.write] at hstep
  split at hstep
  · exact absurd hstep.symm (Option.some_ne_none _)
  rename_i c cs hctx
  split at hstep
  · exact absurd hstep.symm (Option.some_ne_none _)
  rename_i b rest hrest
  split at hstep
  · rename_i hready
    exact ⟨c, cs, b, rest, hctx, hrest, hready, (Option.some.inj hstep).symm⟩
  · exact absurd hstep.symm (Option.some_ne_none _)

theorem finish_eq_some {s s' : System} (h : s.finish = some s') :
    ∃ c cs, s.contexts = c :: cs ∧ c.kind ≠ .thread ∧ c.rest = [] ∧
      s' = { s with contexts := cs } := by
  rw [System.finish] at h
  split at h
  · exact absurd h.symm (Option.some_ne_none _)
  rename_i c cs hctx
  split at h
  · rename_i hdone
    exact ⟨c, cs, hctx, hdone.1, hdone.2, (Option.some.inj h).symm⟩
  · exact absurd h.symm (Option.some_ne_none _)

theorem drain_step_eq_some {s s' : System} (h : s.step .drain = some s') :
    ∃ b fifo, s.uart.fifo = b :: fifo ∧
      s' = { s with uart := { s.uart with fifo := fifo, line := s.uart.line ++ [b] } } := by
  obtain ⟨u, hdrain, rfl⟩ := Option.map_eq_some_iff.mp h
  rw [Uart.drain] at hdrain
  split at hdrain
  · exact absurd hdrain.symm (Option.some_ne_none _)
  · rename_i b fifo hfifo
    obtain rfl := Option.some.inj hdrain
    exact ⟨b, fifo, hfifo, rfl⟩

/-- Neither an interrupt nor an exception. -/
def Quiet : Event → Prop
  | .interrupt _ => False
  | .exception _ => False
  | _ => True

/-- A handler is entered in one way only. -/
theorem enter_cases {s s' : System} {e : Event} (hquiet : ¬Quiet e) (h : s.step e = some s') :
    ∃ sends, e = .interrupt sends ∧ s.kinds = [.thread] ∧ s' = s.enter .irq sends ∨
      e = .exception sends ∧ Kind.exception ∉ s.kinds ∧ s' = s.enter .exception sends := by
  cases e with
  | interrupt sends =>
    rw [System.step] at h
    split at h
    · rename_i halone
      exact ⟨sends, .inl ⟨rfl, halone, (Option.some.inj h).symm⟩⟩
    · exact absurd h.symm (Option.some_ne_none _)
  | exception sends =>
    rw [System.step] at h
    split at h
    · rename_i hnone
      exact ⟨sends, .inr ⟨rfl, hnone, (Option.some.inj h).symm⟩⟩
    · exact absurd h.symm (Option.some_ne_none _)
  | _ => exact absurd trivial hquiet

/-! ### The invariant -/

/-- How contexts can be nested. -/
def nestings : List (List Kind) :=
  [[.thread], [.irq, .thread], [.exception, .thread], [.exception, .irq, .thread]]

/-- The bytes a context has written. -/
def writtenBy (writes : List (ℕ × Byte)) (i : ℕ) : List Byte :=
  (writes.filter fun w => w.1 = i).map Prod.snd

/-- The contexts that have checked and not written yet. -/
def System.ready (s : System) : ℕ := s.contexts.countP Context.ready

structure Inv (sent : List Byte) (s : System) : Prop where
  configured : s.uart.Configured
  nested : s.kinds ∈ nestings
  /-- A context becomes ready when the FIFO is empty, and there are three at most. -/
  room : s.uart.fifo.length + s.ready ≤ 3
  order : s.uart.line ++ s.uart.fifo = sent ++ s.writes.map Prod.snd
  distinct : (s.contexts.map Context.id).Nodup
  running : ∀ c ∈ s.contexts, s.programs[c.id]? = some (writtenBy s.writes c.id ++ c.rest)
  finished : ∀ i program, s.programs[i]? = some program → i ∉ s.contexts.map Context.id →
    writtenBy s.writes i = program
  fresh : ∀ w ∈ s.writes, w.1 < s.programs.length

theorem start_inv (u : Uart) (sends : List Send) : Inv u.line (start u sends) := by
  obtain ⟨-, hconf, hfifo, hline⟩ := init_configured u
  constructor
  · exact hconf
  · exact List.mem_cons_self
  · show (init u).2.fifo.length + 0 ≤ 3
    rw [hfifo]
    exact Nat.zero_le _
  · show (init u).2.line ++ (init u).2.fifo = u.line ++ []
    rw [hfifo, hline]
  · exact List.nodup_singleton 0
  · intro c hc
    obtain rfl := List.mem_singleton.mp hc
    rfl
  · intro i program hi hrun
    cases i with
    | zero => exact absurd (List.mem_singleton.mpr rfl) hrun
    | succ i => exact absurd hi.symm (Option.some_ne_none _)
  · exact fun w hw => absurd hw List.not_mem_nil

theorem ready_le_length (s : System) : s.ready ≤ s.contexts.length := List.countP_le_length

/-- Three contexts at most. -/
theorem Inv.length_le {sent : List Byte} {s : System} (h : Inv sent s) : s.contexts.length ≤ 3 := by
  have hlen : s.kinds.length = s.contexts.length := List.length_map _
  have hshort : ∀ kinds ∈ nestings, kinds.length ≤ 3 := by decide
  rw [← hlen]
  exact hshort _ h.nested

theorem writtenBy_concat (writes : List (ℕ × Byte)) (w : ℕ × Byte) (i : ℕ) :
    writtenBy (writes ++ [w]) i = writtenBy writes i ++ if w.1 = i then [w.2] else [] := by
  rw [writtenBy, List.filter_append, List.map_append, writtenBy]
  by_cases hw : w.1 = i
  · simp [hw]
  · simp [hw]

/-- A context that is not there yet has written nothing. -/
theorem Inv.writtenBy_fresh {sent : List Byte} {s : System} (h : Inv sent s) {i : ℕ}
    (hi : s.programs.length ≤ i) : writtenBy s.writes i = [] := by
  rw [writtenBy, List.map_eq_nil_iff, List.filter_eq_nil_iff]
  intro w hw
  have hlt := h.fresh w hw
  simp only [decide_eq_true_eq]
  omega

/-! ### Steps keep it -/

theorem poll_inv {sent : List Byte} {s s' : System} {other : Byte} (h : Inv sent s)
    (hstep : s.poll other = some s') : Inv sent s' := by
  obtain ⟨c, cs, hctx, -, -, ⟨hempty, rfl⟩ | ⟨-, rfl⟩⟩ := poll_eq_some hstep
  · have hlen := h.length_le
    have hnested := h.nested
    have hdistinct := h.distinct
    have hfinished := h.finished
    rw [System.kinds, hctx] at hnested
    rw [hctx] at hdistinct hfinished hlen
    refine ⟨h.configured, hnested, ?_, h.order, hdistinct, ?_, hfinished, h.fresh⟩
    · have hready := ready_le_length { s with contexts := { c with ready := true } :: cs }
      rw [hempty]
      simp only [List.length_cons, List.length_nil] at hready hlen ⊢
      omega
    · intro d hd
      rcases List.mem_cons.mp hd with rfl | hd
      · exact h.running c (hctx ▸ List.mem_cons_self)
      · exact h.running d (hctx ▸ List.mem_cons_of_mem c hd)
  · exact h

/-- **There is room** whenever a byte is written. -/
theorem write_room {sent : List Byte} {s s' : System} (h : Inv sent s)
    (hstep : s.write = some s') : s.uart.fifo.length < 3 := by
  obtain ⟨c, cs, b, rest, hctx, -, hready, -⟩ := write_eq_some hstep
  have hroom := h.room
  have hpos : 0 < s.ready := by
    rw [System.ready, hctx, List.countP_cons_of_pos hready]
    exact Nat.succ_pos _
  omega

theorem write_inv {sent : List Byte} {s s' : System} (h : Inv sent s)
    (hstep : s.write = some s') : Inv sent s' := by
  have hlt := write_room h hstep
  obtain ⟨c, cs, b, rest, hctx, hrest, hready, rfl⟩ := write_eq_some hstep
  have hsent : outb data b s.uart = { s.uart with fifo := s.uart.fifo ++ [b] } :=
    h.configured.outb_data b (by omega)
  have hnested := h.nested
  have hdistinct := h.distinct
  have hroom := h.room
  rw [System.kinds, hctx] at hnested
  rw [hctx] at hdistinct
  rw [System.ready, hctx, List.countP_cons_of_pos hready] at hroom
  have hother : ∀ i, i ≠ c.id → writtenBy (s.writes ++ [(c.id, b)]) i = writtenBy s.writes i := by
    intro i hi
    rw [writtenBy_concat, if_neg (Ne.symm hi), List.append_nil]
  have hown : c ∈ s.contexts := hctx ▸ List.mem_cons_self
  constructor
  · show (outb data b s.uart).Configured
    rw [hsent]
    exact ⟨h.configured.dlab, h.configured.loopback, h.configured.capacity⟩
  · exact hnested
  · show (outb data b s.uart).fifo.length + _ ≤ 3
    rw [hsent, System.ready, List.countP_cons_of_neg Bool.false_ne_true]
    show (s.uart.fifo ++ [b]).length + _ ≤ 3
    rw [List.length_append, List.length_singleton]
    omega
  · show (outb data b s.uart).line ++ (outb data b s.uart).fifo = _
    rw [hsent, List.map_append, ← List.append_assoc sent, ← h.order, List.append_assoc]
    rfl
  · exact hdistinct
  · intro d hd
    rcases List.mem_cons.mp hd with rfl | hd
    · show s.programs[c.id]? = some (writtenBy (s.writes ++ [(c.id, b)]) c.id ++ rest)
      rw [h.running c hown, hrest, writtenBy_concat, if_pos rfl, List.append_assoc]
      rfl
    · have hne : d.id ≠ c.id := by
        intro heq
        rw [List.map_cons, List.nodup_cons] at hdistinct
        exact hdistinct.1 (heq ▸ List.mem_map_of_mem hd)
      show s.programs[d.id]? = some (writtenBy (s.writes ++ [(c.id, b)]) d.id ++ d.rest)
      rw [hother d.id hne]
      exact h.running d (hctx ▸ List.mem_cons_of_mem c hd)
  · intro i program hi hrun
    have hrun' : i ∉ (c :: cs).map Context.id := hrun
    have hne : i ≠ c.id := fun heq => hrun' (heq ▸ List.mem_cons_self)
    show writtenBy (s.writes ++ [(c.id, b)]) i = program
    rw [hother i hne]
    exact h.finished i program hi (hctx ▸ hrun')
  · intro w hw
    rcases List.mem_append.mp hw with hw | hw
    · exact h.fresh w hw
    · obtain rfl := List.mem_singleton.mp hw
      exact (List.getElem?_eq_some_iff.mp (h.running c hown)).1

theorem enter_inv {sent : List Byte} {s : System} {kind : Kind} (h : Inv sent s)
    (hnested : kind :: s.kinds ∈ nestings) (sends : List Send) : Inv sent (s.enter kind sends) := by
  have hknown : ∀ c ∈ s.contexts, c.id < s.programs.length :=
    fun c hc => (List.getElem?_eq_some_iff.mp (h.running c hc)).1
  constructor
  · exact h.configured
  · exact hnested
  · show s.uart.fifo.length + List.countP _ (_ :: s.contexts) ≤ 3
    rw [List.countP_cons_of_neg Bool.false_ne_true]
    exact h.room
  · exact h.order
  · show (s.programs.length :: s.contexts.map Context.id).Nodup
    rw [List.nodup_cons]
    refine ⟨?_, h.distinct⟩
    intro hmem
    obtain ⟨c, hc, hid⟩ := List.mem_map.mp hmem
    have hlt := hknown c hc
    omega
  · intro c hc
    rcases List.mem_cons.mp hc with rfl | hc
    · show (s.programs ++ [_])[s.programs.length]? = some (writtenBy s.writes s.programs.length ++ _)
      rw [h.writtenBy_fresh (Nat.le_refl _), List.getElem?_concat_length]
      rfl
    · show (s.programs ++ [_])[c.id]? = _
      rw [List.getElem?_append_left (hknown c hc)]
      exact h.running c hc
  · intro i program hi hrun
    have hrun' : i ∉ s.programs.length :: s.contexts.map Context.id := hrun
    rw [List.mem_cons, not_or] at hrun'
    have hi' : (s.programs ++ [_])[i]? = some program := hi
    have hlt : i < s.programs.length := by
      have hlen := (List.getElem?_eq_some_iff.mp hi').1
      rw [List.length_append, List.length_singleton] at hlen
      omega
    rw [List.getElem?_append_left hlt] at hi'
    exact h.finished i program hi' hrun'.2
  · intro w hw
    show w.1 < (s.programs ++ [_]).length
    rw [List.length_append]
    exact Nat.lt_of_lt_of_le (h.fresh w hw) (Nat.le_add_right _ _)

theorem finish_inv {sent : List Byte} {s s' : System} (h : Inv sent s)
    (hstep : s.finish = some s') : Inv sent s' := by
  obtain ⟨c, cs, hctx, hkind, hrest, rfl⟩ := finish_eq_some hstep
  have hnested := h.nested
  have hdistinct := h.distinct
  have hroom := h.room
  rw [System.kinds, hctx, List.map_cons] at hnested
  rw [hctx, List.map_cons, List.nodup_cons] at hdistinct
  rw [System.ready, hctx, List.countP_cons] at hroom
  refine ⟨h.configured, ?_, ?_, h.order, hdistinct.2, ?_, ?_, h.fresh⟩
  · -- what is below a handler is one of the nestings
    have htail : ∀ kinds ∈ nestings, kinds.head? ≠ some .thread → kinds.tail ∈ nestings := by
      decide
    exact htail _ hnested fun heq => hkind (Option.some.inj heq)
  · show s.uart.fifo.length + cs.countP Context.ready ≤ 3
    omega
  · intro d hd
    exact h.running d (hctx ▸ List.mem_cons_of_mem c hd)
  · intro i program hi hrun
    by_cases hic : i = c.id
    · have hall := h.running c (hctx ▸ List.mem_cons_self)
      rw [hrest, List.append_nil, ← hic] at hall
      exact Option.some.inj (hall.symm.trans hi)
    · refine h.finished i program hi ?_
      rw [hctx, List.map_cons, List.mem_cons, not_or]
      exact ⟨hic, hrun⟩

theorem step_inv {sent : List Byte} {s s' : System} {e : Event} (h : Inv sent s)
    (hstep : s.step e = some s') : Inv sent s' := by
  cases e with
  | poll other => exact poll_inv h hstep
  | write => exact write_inv h hstep
  | drain =>
    obtain ⟨u, hdrain, rfl⟩ := Option.map_eq_some_iff.mp hstep
    obtain ⟨horder, hlen, hconf⟩ := drain_eq_some hdrain
    refine ⟨hconf h.configured, h.nested, ?_, horder.trans h.order, h.distinct, h.running,
      h.finished, h.fresh⟩
    exact Nat.le_trans (Nat.add_le_add_right hlen _) h.room
  | interrupt sends =>
    rw [System.step] at hstep
    split at hstep
    · rename_i halone
      obtain rfl := Option.some.inj hstep
      exact enter_inv h (by rw [halone]; decide) sends
    · exact absurd hstep.symm (Option.some_ne_none _)
  | exception sends =>
    rw [System.step] at hstep
    split at hstep
    · rename_i hnone
      obtain rfl := Option.some.inj hstep
      have hnested : ∀ kinds ∈ nestings, Kind.exception ∉ kinds → .exception :: kinds ∈ nestings := by
        decide
      exact enter_inv h (hnested _ h.nested hnone) sends
    · exact absurd hstep.symm (Option.some_ne_none _)
  | finish => exact finish_inv h hstep

/-- What a context has written is the beginning of its program. -/
theorem Inv.writtenBy_prefix {sent : List Byte} {s : System} (h : Inv sent s) {i : ℕ}
    {program : List Byte} (hi : s.programs[i]? = some program) :
    writtenBy s.writes i <+: program := by
  by_cases hrun : i ∈ s.contexts.map Context.id
  · obtain ⟨c, hc, rfl⟩ := List.mem_map.mp hrun
    obtain rfl := Option.some.inj ((h.running c hc).symm.trans hi)
    exact List.prefix_append _ _
  · rw [h.finished i program hi hrun]

/-! ### Programs -/

/-- What a call puts on the line. -/
def Send.spelled : Send → List Byte
  | .send c => [c]
  | .dputc c => if c = ch '\n' then [ch '\r', ch '\n'] else [c]

theorem Send.bytes_eq_spelled : Send.bytes = Send.spelled := by
  funext call
  cases call with
  | send c => rfl
  | dputc c =>
    rw [Send.bytes, Send.spelled, Log.dputc]
    split
    · rename_i hc
      rw [hc]
      rfl
    · rfl

/-- The calls of the handler that an event enters. -/
def Event.sends : Event → Option (List Send)
  | .interrupt sends => some sends
  | .exception sends => some sends
  | _ => none

theorem step_programs {s s' : System} {e : Event} (h : s.step e = some s') :
    s'.programs = s.programs ++ e.sends.toList.map (List.flatMap Send.bytes) := by
  by_cases hquiet : Quiet e
  · have hsame : s'.programs = s.programs ∧ e.sends = none := by
      cases e with
      | poll other =>
        obtain ⟨c, cs, -, -, -, ⟨-, rfl⟩ | ⟨-, rfl⟩⟩ := poll_eq_some h
        · exact ⟨rfl, rfl⟩
        · exact ⟨rfl, rfl⟩
      | write =>
        obtain ⟨c, cs, b, rest, -, -, -, rfl⟩ := write_eq_some h
        exact ⟨rfl, rfl⟩
      | drain =>
        obtain ⟨b, fifo, -, rfl⟩ := drain_step_eq_some h
        exact ⟨rfl, rfl⟩
      | finish =>
        obtain ⟨c, cs, -, -, -, rfl⟩ := finish_eq_some h
        exact ⟨rfl, rfl⟩
      | interrupt sends => exact hquiet.elim
      | exception sends => exact hquiet.elim
    rw [hsame.1, hsame.2, Option.toList_none, List.map_nil, List.append_nil]
  · obtain ⟨sends, ⟨rfl, -, rfl⟩ | ⟨rfl, -, rfl⟩⟩ := enter_cases hquiet h
    · rfl
    · rfl

/-- A run adds the programs of the handlers it enters. -/
theorem run_programs {s t : System} {events : List Event} (h : system.run s events = some t) :
    t.programs = s.programs ++ (events.filterMap Event.sends).map (List.flatMap Send.bytes) := by
  induction events generalizing s with
  | nil =>
    obtain rfl := Option.some.inj h
    exact (List.append_nil _).symm
  | cons e events ih =>
    cases hstep : system.step s e with
    | none => simp [Machine.run, hstep] at h
    | some s' =>
      rw [Machine.run_cons hstep] at h
      rw [ih h, step_programs hstep, List.append_assoc, ← List.map_append]
      cases hsends : e.sends with
      | none => rw [List.filterMap_cons_none hsends, Option.toList_none, List.nil_append]
      | some sends => rw [List.filterMap_cons_some hsends]; rfl

/-! ### Transmission -/

/-- What has left on the line and what has been written, in a state that a run of the thread's calls
reaches through the events. -/
structure Transmitted (sent : List Byte) (sends : List Send) (events : List Event) (s : System) :
    Prop where
  /-- The bytes written leave in the order of the writes; the last of them wait in the FIFO. -/
  line : s.uart.line ++ s.uart.fifo = sent ++ s.writes.map Prod.snd
  /-- To be sent are the calls of the thread, and those of each handler in the order of entry. -/
  programs : s.programs = (sends :: events.filterMap Event.sends).map (List.flatMap Send.spelled)
  /-- A running context has written its program up to the bytes it has left. -/
  running : ∀ c ∈ s.contexts, s.programs[c.id]? = some (writtenBy s.writes c.id ++ c.rest)
  /-- A handler that has returned has written all of it. -/
  finished : ∀ i program, s.programs[i]? = some program → i ∉ s.contexts.map Context.id →
    writtenBy s.writes i = program

/-- **Serial transmission loses and reorders nothing.** Whatever the thread and the handlers send,
and however they, the line and the interrupts interleave: the FIFO is never written while it is
full, the bytes leave in the order of the writes, and each context writes the bytes of its calls,
in their order. -/
theorem serial_transmission (u : Uart) (sends : List Send) (events : List Event) :
    system.Along (fun s e _ => e = .write → s.uart.fifo.length < 16) (start u sends) events ∧
      ∀ s, system.run (start u sends) events = some s →
        Transmitted u.line sends events s := by
  constructor
  · refine Machine.along_of_invariant (I := Inv u.line) ?_ (start_inv u sends) events
    intro s e s' h hstep
    refine ⟨step_inv h hstep, ?_⟩
    rintro rfl
    exact Nat.lt_trans (write_room h hstep) (by decide)
  · intro s hrun
    have hinv : Inv u.line s := Machine.run_invariant (I := Inv u.line)
      (fun s e s' h hstep => step_inv h hstep) (start_inv u sends) hrun
    refine ⟨hinv.order, ?_, hinv.running, hinv.finished⟩
    rw [run_programs hrun, ← Send.bytes_eq_spelled]
    rfl

/-- The controller after a reset. -/
def resetUart : Uart := ⟨0, 0, 0, 0, 0, 0, [], [], []⟩

/-- Between the thread's check and its write a handler sends. -/
def staleRun : List Event :=
  [.poll 0, .interrupt [.send (ch '!')], .poll 0, .write, .finish, .write, .drain, .drain, .poll 0,
    .write, .drain]

/-- Its byte goes first, and the line end of the thread follows whole. -/
theorem serial_transmission_stale : ∃ s,
    system.run (start resetUart [.dputc (ch '\n')]) staleRun = some s ∧
      Transmitted [] [.dputc (ch '\n')] staleRun s ∧
      s.uart.line = [ch '!', ch '\r', ch '\n'] ∧ s.uart.fifo = [] := by
  have hshown : (system.run (start resetUart [.dputc (ch '\n')])
      staleRun).map (fun s => (s.uart.line, s.uart.fifo)) =
        some ([ch '!', ch '\r', ch '\n'], []) := by decide
  obtain ⟨s, hrun, hs⟩ := Option.map_eq_some_iff.mp hshown
  exact ⟨s, hrun, (serial_transmission _ _ staleRun).2 s hrun, congrArg Prod.fst hs,
    congrArg Prod.snd hs⟩

end MegaOS.Serial
