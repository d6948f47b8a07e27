import Ippcode.Proofs.Likeness

/-! # Devices and their answers

All that a machine sees of its reader and its writers is what they answer: the value that a request
gives and whether a write fails. Two machines that are the same but for their devices, and that are
given the same answers, take the same step and tell of the same events.
-/
namespace Ippcode

variable {ρ σ ρ' σ' : Type}

/-- All of a machine but its devices. -/
def Machine.core (m : Machine ρ σ) : Machine Unit Unit where
  memory := m.memory
  calls := m.calls
  operands := m.operands
  pc := m.pc
  completed := m.completed
  input := ()
  stdout := ()
  stderr := ()

def Outcome.core : Outcome ρ σ → Outcome Unit Unit
  | .next m => .next m.core
  | .jump k m => .jump k m.core
  | .exit n m => .exit n m.core
  | .fault f m => .fault f m.core

def Progress.core : Progress ρ σ → Progress Unit Unit
  | .running m => .running m.core
  | .ended n m => .ended n m.core
  | .failed f m => .failed f m.core

theorem Outcome.core_progress (o : Outcome ρ σ) : o.progress.core = o.core.progress := by
  cases o <;> rfl

theorem Progress.core_eq_running {r : Progress ρ σ} {m : Machine Unit Unit}
    (h : r.core = .running m) : ∃ m', r = .running m' ∧ m'.core = m := by
  cases r with
  | running m' =>
    cases h
    exact ⟨m', rfl, rfl⟩
  | ended | failed => cases h

namespace Machine

variable [Reader ρ] [Writer σ] [Reader ρ'] [Writer σ']

/-- Machines that are the same but for their devices, which answer alike at the next step. -/
structure Answered (p : Program) (a : Machine ρ σ) (b : Machine ρ' σ') : Prop where
  core : b.core = a.core
  read : ∀ order dst type, p.line? a.pc = some ⟨order, .read dst type⟩ →
    (Reader.read type b.input).1 = (Reader.read type a.input).1
  write : ∀ ch v, (Writer.write (b.sink ch) v).2 = (Writer.write (a.sink ch) v).2

/-- The same machine with other devices. -/
def withDevices (m : Machine ρ σ) (input : ρ') (stdout stderr : σ') : Machine ρ' σ' :=
  { memory := m.memory, calls := m.calls, operands := m.operands, pc := m.pc,
    completed := m.completed, input, stdout, stderr }

omit [Reader ρ] [Writer σ] [Reader ρ'] [Writer σ'] in
theorem eq_withDevices {a : Machine ρ σ} {b : Machine ρ' σ'} (h : b.core = a.core) :
    b = a.withDevices b.input b.stdout b.stderr := by
  obtain ⟨memory, calls, operands, pc, completed, input, stdout, stderr⟩ := b
  simp only [core, mk.injEq, and_true] at h
  simp only [withDevices, mk.injEq, and_true]
  exact h

omit [Reader ρ] [Writer σ] in
/-- What a run comes to is known from what it comes to with other devices, up to the devices. -/
theorem eq_map_of_core {r r' : Progress ρ σ} (h : r'.core = r.core) :
    r' = r.map id fun m => m.withDevices r'.machine.input r'.machine.stdout r'.machine.stderr := by
  cases r with
  | running m =>
    cases r' with
    | running m' => exact congrArg Progress.running (eq_withDevices (Progress.running.inj h))
    | ended | failed => cases h
  | ended status m =>
    cases r' with
    | ended status' m' =>
      obtain ⟨rfl, hm⟩ := Progress.ended.inj h
      exact congrArg (Progress.ended status') (eq_withDevices hm)
    | running | failed => cases h
  | failed f m =>
    cases r' with
    | failed f' m' =>
      obtain ⟨rfl, hm⟩ := Progress.failed.inj h
      exact congrArg (Progress.failed f') (eq_withDevices hm)
    | running | ended => cases h

variable {p : Program} {line : Line} {a : Machine ρ σ} {b : Machine ρ' σ'}

omit [Reader ρ] [Writer σ] [Reader ρ'] [Writer σ'] in
theorem core_attempt (m : Machine ρ σ) (i : ρ') (o e : σ') (r : Except Fault Memory) :
    ((m.withDevices i o e).attempt (r.map fun memory => { m.withDevices i o e with memory })).core =
      (m.attempt (r.map fun memory => { m with memory })).core := by
  cases r <;> rfl

omit [Reader ρ] [Writer σ] [Reader ρ'] [Writer σ'] in
theorem computed_withDevices (m : Machine ρ σ) (i : ρ') (o e : σ') (c : Command) :
    (m.withDevices i o e).computed c = m.computed c := by
  cases c <;> rfl

theorem core_exec_of_computed {i : ρ'} {o e : σ'} {dst : VarRef} {r : Except Fault Value}
    (h : a.computed line.command = some (dst, r)) :
    ((a.withDevices i o e).exec p line).core = (a.exec p line).core := by
  rw [exec_of_computed h, exec_of_computed ((computed_withDevices a i o e line.command).trans h)]
  cases r with
  | error f => rfl
  | ok v => exact core_attempt a i o e (a.memory.store dst v)

omit [Reader ρ] [Reader ρ'] in
theorem core_emit {i : ρ'} {o e : σ'} {ch : Channel} {v : Value}
    (h : (Writer.write ((a.withDevices i o e).sink ch) v).2 = (Writer.write (a.sink ch) v).2) :
    ((a.withDevices i o e).emit ch v).core = (a.emit ch v).core := by
  simp only [emit, h]
  cases (Writer.write (a.sink ch) v).2 <;> cases ch <;> rfl

omit [Reader ρ] [Reader ρ'] in
theorem core_print {i : ρ'} {o e : σ'} {ch : Channel} (src : Symbol)
    (h : ∀ v, (Writer.write ((a.withDevices i o e).sink ch) v).2 = (Writer.write (a.sink ch) v).2) :
    ((a.withDevices i o e).print ch src).core = (a.print ch src).core := by
  have hcopied : (a.withDevices i o e).copied src = a.copied src := rfl
  simp only [print, hcopied]
  cases a.copied src with
  | error f => rfl
  | ok v =>
    simp only [put]
    cases v.printed? with
    | none => rfl
    | some x => exact core_emit (h x)

/-- Machines that are answered alike carry out a line alike. -/
theorem Answered.core_exec (h : Answered p a b) (hl : p.line? a.pc = some line) :
    (b.exec p line).core = (a.exec p line).core := by
  obtain ⟨i, o, e, rfl⟩ : ∃ i o e, b = a.withDevices i o e := ⟨_, _, _, eq_withDevices h.core⟩
  obtain ⟨order, c⟩ := line
  cases c with
  | move | unary | binary | setChar | type => exact core_exec_of_computed rfl
  | createFrame | label => rfl
  | pushFrame => exact core_attempt a i o e a.memory.pushTemporary
  | popFrame => exact core_attempt a i o e a.memory.popLocal
  | defVar dst => exact core_attempt a i o e (a.memory.declare dst)
  | call target | jump target =>
    simp only [exec]
    cases p.label target <;> rfl
  | ret =>
    have hcalls : (a.withDevices i o e).calls = a.calls := rfl
    simp only [exec, hcalls]
    cases a.calls <;> rfl
  | pushS src =>
    have hcopied : (a.withDevices i o e).copied src = a.copied src := rfl
    simp only [exec, hcopied]
    cases a.copied src <;> rfl
  | popS dst =>
    have hoperands : (a.withDevices i o e).operands = a.operands := rfl
    simp only [exec, hoperands]
    cases a.operands with
    | nil => rfl
    | cons v operands => exact core_attempt { a with operands } i o e (a.memory.store dst v)
  | read dst type =>
    have hread : (a.withDevices i o e).nextRead type = a.nextRead type := by
      rw [nextRead, nextRead, h.read order dst type hl]
    change (attempt _ ((a.memory.store dst ((a.withDevices i o e).nextRead type)).map _)).core = _
    rw [hread]
    exact core_attempt { a with input := a.restInput type } _ o e
      (a.memory.store dst (a.nextRead type))
  | write src => exact core_print src fun v => h.write .out v
  | jumpIf equal target x y =>
    have htest (op : Opcode) :
        (a.withDevices i o e).jumpTest p op target x y = a.jumpTest p op target x y := rfl
    simp only [exec, htest]
    cases a.jumpTest p _ target x y with
    | error f => rfl
    | ok r =>
      obtain ⟨k, r⟩ := r
      by_cases hr : r = equal
      · simp only [if_pos hr]
        rfl
      · simp only [if_neg hr]
        rfl
  | exit s =>
    have hstatus : (a.withDevices i o e).status s = a.status s := rfl
    simp only [exec, hstatus]
    cases a.status s <;> rfl
  | dPrint src => exact core_print src fun v => h.write .err v
  | brk => exact core_emit (h.write .err _)

theorem Answered.events (h : Answered p a b) (hl : p.line? a.pc = some line) :
    b.events p line = a.events p line := by
  obtain ⟨i, o, e, rfl⟩ : ∃ i o e, b = a.withDevices i o e := ⟨_, _, _, eq_withDevices h.core⟩
  have hmemory : (a.withDevices i o e).memory = a.memory := rfl
  obtain ⟨order, c⟩ := line
  unfold Machine.events
  cases c with
  | pushFrame =>
    simp only [exec, hmemory]
    cases a.memory.pushTemporary <;> rfl
  | popFrame =>
    simp only [exec, hmemory]
    cases a.memory.popLocal <;> rfl
  | read dst type =>
    simp only [h.read order dst type hl]
    rfl
  | _ => rfl

/-- Machines that are answered alike take the same step. -/
theorem Answered.core_step (h : Answered p a b) :
    (b.step p).core = (a.step p).core ∧ b.stepEvents p = a.stepEvents p := by
  have hpc : b.pc = a.pc := congrArg pc h.core
  unfold step stepEvents
  rw [hpc]
  cases hl : p.line? a.pc with
  | none => exact ⟨congrArg (Progress.ended 0) h.core, rfl⟩
  | some line =>
    refine ⟨?_, h.events hl⟩
    simp only [Outcome.core_progress, h.core_exec hl]

/-- Machines that are answered alike as long as they run take the same steps. What makes the answers
alike, `R`, may depend on the number of steps that are left. -/
theorem run_of_answered {R : Nat → Machine ρ σ → Machine ρ' σ' → Prop}
    (hcore : ∀ {n a b}, R n a b → b.core = a.core)
    (hanswered : ∀ {n a b}, R (n + 1) a b → Answered p a b)
    (hnext : ∀ {n a b a' b'}, R (n + 1) a b → a.step p = .running a' → b.step p = .running b' →
      R n a' b') {n : Nat} (h : R n a b) :
    (b.run p n).core = (a.run p n).core ∧ b.trace p n = a.trace p n := by
  induction n generalizing a b with
  | zero => exact ⟨congrArg Progress.running (hcore h), rfl⟩
  | succ n ih =>
    obtain ⟨hstep, hevents⟩ := (hanswered h).core_step
    unfold run trace
    rw [hevents]
    cases ha : a.step p with
    | running a' =>
      rw [ha] at hstep
      obtain ⟨b', hb, -⟩ := Progress.core_eq_running hstep
      obtain ⟨hrun, htrace⟩ := ih (hnext h ha hb)
      simp only [hb]
      exact ⟨hrun, congrArg _ htrace⟩
    | ended status a' | failed f a' =>
      rw [ha] at hstep
      cases hb : b.step p with
      | running b' =>
        rw [hb] at hstep
        cases hstep
      | ended | failed =>
        rw [hb] at hstep
        exact ⟨hstep, rfl⟩

end Machine

end Ippcode
