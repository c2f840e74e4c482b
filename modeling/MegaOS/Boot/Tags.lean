import MegaOS.Foundation.Chain
import MegaOS.Foundation.Memory
import MegaOS.Foundation.Runs

/-!
# Boot tags and the initialisation of the log

The boot loader leaves a chain of tags in memory. `log::init` looks for the tag
of the terminal and takes the address of its write function from there.
-/

namespace MegaOS.Boot

open MegaOS.Memory MegaOS.Chain MegaOS.Runs

/-- `STIVALE2_STRUCT_TAG_TERMINAL_ID` -/
def terminalId : Word := 0xc2b3f4c3233b0974

/-! ### Fields, at their offsets -/

/-- `st2_struct::tags` -/
def tagsOf (m : Mem) (bootInfo : Addr) : Addr := m.load64 (bootInfo + 128)

/-- `tag::identifier` -/
def identifier (m : Mem) (tag : Addr) : Word := m.load64 tag

/-- `tag::next` -/
def nextTag (m : Mem) (tag : Addr) : Addr := m.load64 (tag + 8)

/-- `struct_tag_terminal::term_write` -/
def termWrite (m : Mem) (tag : Addr) : Word := m.load64 (tag + 24)

/-! ### The code -/

/-- `st2::get_tag`, of at most `fuel` rounds. -/
def getTag (m : Mem) (bootInfo : Addr) (tagId : Word) (fuel : ℕ) : Option Addr :=
  search 0 (nextTag m) (fun tag => identifier m tag = tagId) fuel (tagsOf m bootInfo)

/-- `get_write_function` -/
def getWriteFunction (m : Mem) (bootInfo : Addr) (fuel : ℕ) : Option Word := do
  let termTag ← getTag m bootInfo terminalId fuel
  if termTag = 0 then some 0 else some (termWrite m termTag)

/-- `log::init`: what it returns, and `write`. `serialInit` is what `serial::init` returned. -/
def init (serialInit : Bool) (m : Mem) (bootInfo : Addr) (fuel : ℕ) (write : Word) :
    Option (Bool × Word) :=
  if !serialInit then some (false, write)
  else if write ≠ 0 then some (false, write)
  else do
    let f ← getWriteFunction m bootInfo fuel
    if f ≠ 0 then some (true, f) else some (false, write)

/-! ### Lookup -/

/-- A memory whose tags, from `boot_info->tags` on, form a finite chain. -/
structure BootMemory where
  mem : Mem
  bootInfo : Addr
  tags : List Addr
  chain : IsChain 0 (nextTag mem) (tagsOf mem bootInfo) tags

/-- The first tag with an identifier. -/
def BootMemory.firstTag (b : BootMemory) (tagId : Word) : Option Addr :=
  b.tags.find? fun tag => identifier b.mem tag = tagId

/-- **Lookup** ends on every chain, with its first tag of that identifier, or with null. -/
theorem getTag_eq (b : BootMemory) (tagId : Word) {fuel : ℕ} (hfuel : b.tags.length < fuel) :
    getTag b.mem b.bootInfo tagId fuel = some ((b.firstTag tagId).getD 0) :=
  search_chain b.chain _ hfuel

/-- It is null exactly when no tag has the identifier. -/
theorem firstTag_getD_eq_zero_iff (b : BootMemory) (tagId : Word) :
    (b.firstTag tagId).getD 0 = 0 ↔ ∀ tag ∈ b.tags, identifier b.mem tag ≠ tagId := by
  cases hfirst : b.firstTag tagId with
  | none =>
    have hnone := List.find?_eq_none.mp hfirst
    exact iff_of_true rfl fun tag htag heq => hnone tag htag (decide_eq_true heq)
  | some tag =>
    have hmem := List.mem_of_find?_eq_some hfirst
    have hid := List.find?_some hfirst
    exact iff_of_false (b.chain.ne_null hmem)
      fun hall => hall tag hmem (of_decide_eq_true hid)

/-! ### Initialisation -/

/-- The terminal's write function, if the first terminal tag has one. -/
def BootMemory.terminal (b : BootMemory) : Word :=
  match b.firstTag terminalId with
  | some tag => termWrite b.mem tag
  | none => 0

theorem getWriteFunction_eq (b : BootMemory) {fuel : ℕ} (hfuel : b.tags.length < fuel) :
    getWriteFunction b.mem b.bootInfo fuel = some b.terminal := by
  rw [getWriteFunction, getTag_eq b terminalId hfuel, BootMemory.terminal]
  simp only [Option.bind_eq_bind, Option.bind_some]
  cases hfirst : b.firstTag terminalId with
  | none => rfl
  | some tag => exact if_neg (b.chain.ne_null (List.mem_of_find?_eq_some hfirst))

/-- What one call does. -/
theorem init_eq (serialInit : Bool) (b : BootMemory) {fuel : ℕ} (hfuel : b.tags.length < fuel)
    (write : Word) :
    init serialInit b.mem b.bootInfo fuel write =
      if serialInit = true ∧ write = 0 ∧ b.terminal ≠ 0 then some (true, b.terminal)
      else some (false, write) := by
  simp only [init, getWriteFunction_eq b hfuel]
  cases serialInit with
  | false => rfl
  | true =>
    by_cases hwrite : write = 0
    · by_cases hterm : b.terminal = 0
      · rw [if_neg (show ¬(true = true ∧ write = 0 ∧ b.terminal ≠ 0) from fun h => h.2.2 hterm)]
        simp only [Bool.not_true, Bool.false_eq_true, if_false, if_neg (not_not.mpr hwrite)]
        exact if_neg (not_not.mpr hterm)
      · rw [if_pos (show true = true ∧ write = 0 ∧ b.terminal ≠ 0 from ⟨rfl, hwrite, hterm⟩)]
        simp only [Bool.not_true, Bool.false_eq_true, if_false, if_neg (not_not.mpr hwrite)]
        exact if_pos hterm
    · rw [if_neg (show ¬(true = true ∧ write = 0 ∧ b.terminal ≠ 0) from fun h => hwrite h.2.1)]
      exact if_pos hwrite

/-- A call: the outcome of `serial::init` and the memory. -/
structure InitCall where
  serialInit : Bool
  memory : BootMemory

/-- Calls in turn, each given as many rounds as its chain has tags and one more. -/
def initMachine : Machine Word InitCall where
  step write call :=
    (init call.serialInit call.memory.mem call.memory.bootInfo (call.memory.tags.length + 1)
      write).map Prod.snd

/-- A call returns true exactly when the serial line works, `write` was null and the terminal has a
write function; then that is the new `write`, and otherwise `write` stays. -/
def InitRight (write : Word) (call : InitCall) (write' : Word) : Prop :=
  ∃ r, init call.serialInit call.memory.mem call.memory.bootInfo (call.memory.tags.length + 1)
      write = some (r, write') ∧
    (r = true ↔ call.serialInit = true ∧ write = 0 ∧ ∃ tag,
      call.memory.firstTag terminalId = some tag ∧ termWrite call.memory.mem tag ≠ 0) ∧
    (r = true → ∃ tag, call.memory.firstTag terminalId = some tag ∧
      write' = termWrite call.memory.mem tag ∧ write' ≠ 0) ∧
    (r = false → write' = write)

theorem terminal_ne_zero_iff (b : BootMemory) :
    b.terminal ≠ 0 ↔ ∃ tag, b.firstTag terminalId = some tag ∧ termWrite b.mem tag ≠ 0 := by
  rw [BootMemory.terminal]
  cases b.firstTag terminalId with
  | none => simp
  | some tag => simp

/-- Every call returns, and does what it should. -/
theorem initMachine_step (write : Word) (call : InitCall) :
    ∃ write', initMachine.step write call = some write' ∧ InitRight write call write' := by
  have heq := init_eq call.serialInit call.memory (Nat.lt_succ_self _) write
  by_cases hset : call.serialInit = true ∧ write = 0 ∧ call.memory.terminal ≠ 0
  · rw [if_pos hset] at heq
    obtain ⟨tag, htag, hne⟩ := (terminal_ne_zero_iff call.memory).mp hset.2.2
    have hterm : call.memory.terminal = termWrite call.memory.mem tag := by
      rw [BootMemory.terminal, htag]
    refine ⟨call.memory.terminal, ?_, true, heq, ?_, ?_, nofun⟩
    · show Option.map _ _ = _
      rw [heq]
      rfl
    · exact iff_of_true rfl ⟨hset.1, hset.2.1, tag, htag, hne⟩
    · exact fun _ => ⟨tag, htag, hterm, hset.2.2⟩
  · rw [if_neg hset] at heq
    refine ⟨write, ?_, false, heq, ?_, nofun, fun _ => rfl⟩
    · show Option.map _ _ = _
      rw [heq]
      rfl
    · rw [terminal_ne_zero_iff] at hset
      exact iff_of_false nofun hset

/-- Once set, `write` stays. -/
theorem initMachine_keeps {write write' : Word} {call : InitCall} (hwrite : write ≠ 0)
    (hstep : initMachine.step write call = some write') : write' = write := by
  obtain ⟨write'', hstep', r, -, htrue, -, hfalse⟩ := initMachine_step write call
  obtain rfl := Option.some.inj (hstep.symm.trans hstep')
  apply hfalse
  rw [← Bool.not_eq_true, htrue]
  exact fun h => hwrite h.2.1

theorem initMachine_run (write : Word) (calls : List InitCall) :
    ∃ write', initMachine.run write calls = some write' := by
  induction calls generalizing write with
  | nil => exact ⟨write, rfl⟩
  | cons call calls ih =>
    obtain ⟨write', hstep, -⟩ := initMachine_step write call
    obtain ⟨write'', hrun⟩ := ih write'
    exact ⟨write'', by rw [Machine.run_cons hstep, hrun]⟩

end MegaOS.Boot
