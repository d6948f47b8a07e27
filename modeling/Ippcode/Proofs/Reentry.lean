import Ippcode.Proofs.FaultKinds
import Ippcode.Proofs.Reachable

/-! # Faults and what comes after them

A line that faults leaves memory, the call stack and the position alone. It may have lost an operand,
used up a line of input or written a part of its output. Running on from there carries out the same
line again, so that what it left decides what the next runs return.
-/
namespace Ippcode

namespace Memory

/-- Whether a variable can be assigned does not depend on the value. -/
theorem store_eq_error {mem : Memory} {v : VarRef} {x : Value} {f : Fault}
    (h : mem.store v x = .error f) (y : Value) : mem.store v y = .error f := by
  obtain h | ⟨g, hg, h⟩ := update_eq_error_iff.1 h
  · exact update_eq_error_iff.2 (.inl h)
  · refine update_eq_error_iff.2 (.inr ⟨g, hg, ?_⟩)
    unfold Frame.set at h ⊢
    split at h
    · cases h
    next hn => rw [if_neg hn, h]

end Memory

namespace Machine

variable {ρ σ : Type}

/-- The fault of a `POPS` that has an operand to take but cannot assign it. -/
def popFault? (m : Machine ρ σ) : Command → Option Fault
  | .popS dst =>
    match m.operands with
    | [] => none
    | v :: _ =>
      match m.memory.store dst v with
      | .error f => some f
      | .ok _ => none
  | _ => none

/-- What a `POPS` that cannot assign returns if it is run again `k` times: the same fault as long as
there is an operand to lose, and that there is none from then on. -/
def popsAgain (m : Machine ρ σ) (f : Fault) (k : Nat) : Progress ρ σ :=
  if k < m.operands.length then .failed f { m with operands := m.operands.drop (k + 1) }
  else .failed (.emptyStack "operand stack") { m with operands := [] }

variable [Reader ρ]

/-- All that a command which faults may have done. -/
structure FaultEffect (m : Machine ρ σ) (c : Command) (f : Fault) (m' : Machine ρ σ) : Prop where
  memory : m'.memory = m.memory
  calls : m'.calls = m.calls
  pc : m'.pc = m.pc
  completed : m'.completed = m.completed
  operands : m'.operands = if (m.popFault? c).isSome then m.operands.tail else m.operands
  input : m'.input = m.inputAfter c
  stdout : m'.stdout = m.stdout ∨ c.opcode = .write ∧ f.kind = .output
  stderr : m'.stderr = m.stderr ∨ c.opcode ∈ [.dPrint, .brk] ∧ f.kind = .output

theorem effect_of_computed {m : Machine ρ σ} {c : Command} {dst : VarRef} {r : Except Fault Value}
    (h : m.computed c = some (dst, r)) (f : Fault) : FaultEffect m c f m := by
  have hlost : m.popFault? c = none := by
    cases c <;> first | rfl | cases h
  exact ⟨rfl, rfl, rfl, rfl, by simp [hlost], (inputAfter_of_computed h).symm, .inl rfl, .inl rfl⟩

variable [Writer σ] {p : Program} {line : Line} {m m' : Machine ρ σ} {f : Fault}

theorem Rule.effect_of_fault {order : Int64} {c : Command} (h : Rule p order m c (.fault f m')) :
    FaultEffect m c f m' := by
  cases h with
  | notComputed hc => exact effect_of_computed hc f
  | notAssigned hc => exact effect_of_computed hc f
  | nothingToPop h =>
    refine ⟨rfl, rfl, rfl, rfl, ?_, rfl, .inl rfl, .inl rfl⟩
    simp [popFault?, h]
  | popLost h hs =>
    refine ⟨rfl, rfl, rfl, rfl, ?_, rfl, .inl rfl, .inl rfl⟩
    simp [popFault?, h, hs]
  | notWritten _ hp =>
    exact ⟨rfl, rfl, rfl, rfl, rfl, rfl, .inr ⟨rfl, kind_of_prints hp⟩, .inl rfl⟩
  | notPrinted _ hp =>
    exact ⟨rfl, rfl, rfl, rfl, rfl, rfl, .inl rfl, .inr ⟨by simp [Command.opcode], kind_of_prints hp⟩⟩
  | notDumped h =>
    exact ⟨rfl, rfl, rfl, rfl, rfl, rfl, .inl rfl, .inr ⟨by simp [Command.opcode], kind_of_write h⟩⟩
  | _ => exact ⟨rfl, rfl, rfl, rfl, rfl, rfl, .inl rfl, .inl rfl⟩

theorem Rule.eq_of_fault {order : Int64} {c : Command} (h : Rule p order m c (.fault f m'))
    (hf : f.kind ≠ .output) (hop : c.opcode ∉ [.popS, .read]) : m' = m := by
  cases h with
  | popLost | readLost => exact absurd (by simp [Command.opcode]) hop
  | notWritten _ hp | notPrinted _ hp => exact absurd (kind_of_prints hp) hf
  | notDumped h => exact absurd (kind_of_write h) hf
  | _ => rfl

theorem Rule.store_of_popFault? {order : Int64} {c : Command} (h : Rule p order m c (.fault f m'))
    (hlost : (m.popFault? c).isSome) :
    ∃ dst, c = .popS dst ∧ ∀ v, m.memory.store dst v = .error f := by
  cases h with
  | notComputed hc => cases c <;> first | cases hlost | cases hc
  | notAssigned hc => cases c <;> first | cases hlost | cases hc
  | nothingToPop h => simp [popFault?, h] at hlost
  | popLost h hs => exact ⟨_, rfl, Memory.store_eq_error hs⟩
  | _ => cases hlost

/-! ## Running on -/

theorem calls_of_unchanged (h : m.step p = .failed f m) (k : Nat) {r : Progress ρ σ} :
    Calls p m k r ↔ r = .failed f m :=
  calls_iff (fun _ => .failed f m) (fun _ => trivial) h (fun _ => h) k

theorem step_of_popS {dst : VarRef} (hl : p.line? m.pc = some line) (hc : line.command = .popS dst)
    (hs : ∀ v, m.memory.store dst v = .error f) : m.step p = m.popsAgain f 0 := by
  cases ho : m.operands with
  | nil =>
    have hr : Rule p line.order m line.command (.fault (.emptyStack "operand stack") m) := by
      rw [hc]
      exact .nothingToPop ho
    rw [step_of_rule hl hr, popsAgain, ho, if_neg (by simp), ← ho]
    rfl
  | cons v rest =>
    have hr : Rule p line.order m line.command (.fault f { m with operands := rest }) := by
      rw [hc]
      exact .popLost ho (hs v)
    rw [step_of_rule hl hr, popsAgain, ho, if_pos (by simp)]
    rfl

theorem calls_of_popS {dst : VarRef} (hl : p.line? m.pc = some line) (hc : line.command = .popS dst)
    (hs : ∀ v, m.memory.store dst v = .error f) (k : Nat) {r : Progress ρ σ} :
    Calls p m k r ↔ r = m.popsAgain f k := by
  refine calls_iff (m.popsAgain f) ?_ (step_of_popS hl hc hs) ?_ k
  · intro k
    unfold popsAgain
    split <;> trivial
  · intro k
    have hm : (m.popsAgain f k).machine = { m with operands := m.operands.drop (k + 1) } := by
      unfold popsAgain
      split
      · rfl
      next hk => rw [List.drop_eq_nil_of_le (by omega)]; rfl
    have hstep : ({ m with operands := m.operands.drop (k + 1) } : Machine ρ σ).step p = _ :=
      step_of_popS hl hc hs
    rw [hm, hstep]
    simp only [popsAgain, List.length_drop, List.drop_drop, Nat.sub_pos_iff_lt]

theorem calls_of_exit {s : Symbol} {n : Nat} (hl : p.line? m.pc = some line)
    (hc : line.command = .exit s) (hs : m.status s = .ok n) (k : Nat) {r : Progress ρ σ} :
    Calls p m k r ↔ r = .ended n { m with completed := m.completed + (k + 1) } := by
  have hstep : ∀ i, ({ m with completed := i } : Machine ρ σ).step p =
      .ended n { m with completed := i + 1 } := by
    intro i
    refine step_of_rule (o := .exit n { m with completed := i }) hl ?_
    rw [hc]
    exact .exit hs
  exact calls_iff (fun k => .ended n { m with completed := m.completed + (k + 1) })
    (fun _ => trivial) (hstep _) (fun k => hstep _) k

theorem calls_of_end (h : p.line? m.pc = none) (k : Nat) {r : Progress ρ σ} :
    Calls p m k r ↔ r = .ended 0 m :=
  calls_iff (fun _ => .ended 0 m) (fun _ => trivial) (step_of_end h) (fun _ => step_of_end h) k

/-- What a line that faults leaves, and what running on returns: after a fault, after an exit and
behind the last line, however often. -/
theorem fault_effect_and_reentry (p : Program) (m : Machine ρ σ) :
    (∀ f m', m.step p = .failed f m' →
      ∃ line, p.line? m.pc = some line ∧ FaultEffect m line.command f m' ∧
        (f.kind ≠ .output → line.command.opcode ∉ [.popS, .read] →
          ∀ k r, Calls p m' k r ↔ r = .failed f m') ∧
        ((m.popFault? line.command).isSome → ∀ k r, Calls p m' k r ↔ r = m'.popsAgain f k)) ∧
      (∀ n m', m.step p = .ended n m' → (p.line? m.pc).isSome →
        ∀ k r, Calls p m' k r ↔ r = .ended n { m' with completed := m'.completed + (k + 1) }) ∧
      (p.line? m.pc = none → m.step p = .ended 0 m ∧ ∀ k r, Calls p m k r ↔ r = .ended 0 m) := by
  refine ⟨?_, ?_, ?_⟩
  · intro f m' h
    obtain ⟨line, hl, hr⟩ := rule_of_failed h
    have he := hr.effect_of_fault
    refine ⟨line, hl, he, ?_, ?_⟩
    · intro hf hop k r
      obtain rfl := hr.eq_of_fault hf hop
      exact calls_of_unchanged h k
    · intro hlost k r
      obtain ⟨dst, hc, hs⟩ := hr.store_of_popFault? hlost
      exact calls_of_popS (he.pc ▸ hl) hc (he.memory ▸ hs) k
  · intro n m' h hsome k r
    obtain ⟨hl, -⟩ | ⟨line, m₁, hl, hr, rfl⟩ := rule_of_ended h
    · simp [hl] at hsome
    · obtain ⟨s, hc, hs, rfl⟩ := hr.eq_exit
      exact calls_of_exit (m := { m₁ with completed := m₁.completed + 1 }) hl hc hs k
  · intro hl
    exact ⟨step_of_end hl, fun k r => calls_of_end hl k⟩

/-- With two operands and a destination that was never declared, running on loses both. -/
theorem fault_effect_and_reentry_popS :
    ∃ (p : Program) (m m' : Machine), Program.ofInstructions
        [⟨3, .popS, [.symbol (.var ⟨.gf, "x"⟩)]⟩, ⟨1, .pushS, [.symbol (.const (.bool true))]⟩,
          ⟨2, .pushS, [.symbol (.const (.int 2))]⟩] = .ok p ∧
      Reachable p m ∧ m.operands = [.int 2, .bool true] ∧
      m.step p = .failed (.variableMissing "x") m' ∧ m'.operands = [.bool true] ∧
      (∀ r, Calls p m' 0 r ↔ r = .failed (.variableMissing "x") { m' with operands := [] }) ∧
      ∀ r, Calls p m' 7 r ↔ r = .failed (.emptyStack "operand stack") { m' with operands := [] } := by
  let p : Program :=
    ⟨#[⟨1, .pushS (.const (.bool true))⟩, ⟨2, .pushS (.const (.int 2))⟩, ⟨3, .popS ⟨.gf, "x"⟩⟩], []⟩
  have hp : Program.ofInstructions _ = .ok p :=
    Program.ofInstructions_of_perm
      [⟨3, .popS ⟨.gf, "x"⟩⟩, ⟨1, .pushS (.const (.bool true))⟩, ⟨2, .pushS (.const (.int 2))⟩]
      (by decide) (by decide) (by decide) rfl
  let m : Machine :=
    { start ⟨[]⟩ (.empty none) (.empty none) with
      operands := [.int 2, .bool true], pc := 2, completed := 2 }
  have hm : Reachable p m := (Reachable.start m.input m.stdout m.stderr).step.step
  obtain ⟨hfault, -⟩ := fault_effect_and_reentry p m
  obtain ⟨line, hl, heffect, -, hagain⟩ := hfault (.variableMissing "x") _ rfl
  cases hl
  exact ⟨p, m, _, hp, hm, rfl, rfl, heffect.operands, hagain rfl 0, hagain rfl 7⟩

end Machine

end Ippcode
