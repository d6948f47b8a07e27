import Ippcode.Proofs.ControlFlow

/-! # Stretches of steps

`after` is the state so many steps on, whether or not a fault or an end lies in between, so that a
part of one run and a part of several runs in a row are both counted in steps. A step that takes
from a stack matches the one that put there if it is the first to bring the depth back; until then
the stack is deeper.
-/
namespace Ippcode

variable {ρ σ : Type}

namespace Machine

variable [Reader ρ] [Writer σ]

/-- The state after `n` steps. Behind an end or a fault it goes on as the next run does. -/
def after (p : Program) (m : Machine ρ σ) : Nat → Machine ρ σ
  | 0 => m
  | n + 1 => ((m.after p n).step p).machine

omit [Reader ρ] [Writer σ] in
/-- The command that the next step carries out. -/
def command? (p : Program) (m : Machine ρ σ) : Option Command := (p.line? m.pc).map (·.command)

variable {p : Program} {m m' : Machine ρ σ} {n : Nat}

@[simp] theorem after_zero : m.after p 0 = m := rfl

theorem after_succ (n : Nat) : m.after p (n + 1) = ((m.after p n).step p).machine := rfl

theorem after_succ_first (n : Nat) : m.after p (n + 1) = (m.step p).machine.after p n := by
  induction n with
  | zero => rfl
  | succ n ih => rw [after_succ, ih, ← after_succ]

/-- The last step of a run that still goes on. -/
theorem step_of_run (h : m.run p (n + 1) = .running m') : (m.after p n).step p = .running m' := by
  induction n generalizing m with
  | zero =>
    cases hs : m.step p with
    | running m₁ =>
      rw [run_of_running hs] at h
      cases h
      exact hs
    | ended | failed => simp [run, hs] at h
  | succ n ih =>
    cases hs : m.step p with
    | running m₁ =>
      have hrun : m₁.run p (n + 1) = .running m' := by rwa [run_of_running hs] at h
      rw [after_succ_first, hs]
      exact ih hrun
    | ended | failed => simp [run, hs] at h

/-- As long as a run goes on, its states are those after so many steps. -/
theorem after_of_run (h : m.run p n = .running m') : m.after p n = m' := by
  cases n with
  | zero =>
    cases h
    rfl
  | succ n => rw [after_succ, step_of_run h, Progress.machine]

theorem Reachable.after (h : Reachable p m) (n : Nat) : Reachable p (m.after p n) := by
  induction n with
  | zero => exact h
  | succ n ih => exact ih.step

omit [Reader ρ] [Writer σ] in
theorem command?_of_line {line : Line} (hl : p.line? m.pc = some line) :
    m.command? p = some line.command := by
  rw [command?, hl, Option.map_some]

omit [Reader ρ] [Writer σ] in
theorem exists_line_of_command? {c : Command} (h : m.command? p = some c) :
    ∃ line, p.line? m.pc = some line ∧ line.command = c :=
  Option.map_eq_some_iff.1 h

omit [Reader ρ] [Writer σ] in
theorem opcode?_of_command? {c : Command} (h : m.command? p = some c) :
    p.opcode? m.pc = some c.opcode := by
  obtain ⟨line, hl, rfl⟩ := exists_line_of_command? h
  exact Program.opcode?_of_line hl

omit [Reader ρ] [Writer σ] in
theorem exists_command_of_opcode? {op : Opcode} (h : p.opcode? m.pc = some op) :
    ∃ c, m.command? p = some c ∧ c.opcode = op := by
  obtain ⟨line, hl, hop⟩ := Option.map_eq_some_iff.1 h
  exact ⟨line.command, command?_of_line hl, hop⟩

/-- What the rules of a command say for every order is what the step does. -/
theorem step_of_command? {c : Command} {o : Outcome ρ σ} (hc : m.command? p = some c)
    (hr : ∀ order, Rule p order m c o) : m.step p = o.progress := by
  obtain ⟨line, hl, rfl⟩ := exists_line_of_command? hc
  exact step_of_rule hl (hr line.order)

/-! ## Matching -/

/-- The step after `i` others carries out `op` and leaves the depth that there is here. -/
def Closes (p : Program) (op : Opcode) (depth : Machine ρ σ → Nat) (m : Machine ρ σ) (i : Nat) :
    Prop :=
  p.opcode? (m.after p i).pc = some op ∧ depth (m.after p (i + 1)) = depth m

instance (op : Opcode) (depth : Machine ρ σ → Nat) (i : Nat) :
    Decidable (Closes p op depth m i) :=
  inferInstanceAs (Decidable (_ ∧ _))

/-- The step after `n` others is the first later one that carries out `op` and brings the depth
back to what it is here. -/
structure Matched (p : Program) (op : Opcode) (depth : Machine ρ σ → Nat) (m : Machine ρ σ)
    (n : Nat) : Prop where
  later : 0 < n
  closes : Closes p op depth m n
  first : ∀ i, 0 < i → i < n → ¬ Closes p op depth m i

/-- Between the step that makes a stack deeper and the one that matches it, it stays deeper. -/
theorem Matched.lt_depth {op : Opcode} {depth : Machine ρ σ → Nat} (h : Matched p op depth m n)
    (hstep : ∀ a : Machine ρ σ, depth a ≤ depth (a.step p).machine ∨
      p.opcode? a.pc = some op ∧ depth a = depth (a.step p).machine + 1)
    (hfirst : depth m < depth (m.step p).machine) {i : Nat} (hpos : 0 < i) (hi : i ≤ n) :
    depth m < depth (m.after p i) := by
  induction i with
  | zero => exact absurd hpos (Nat.lt_irrefl 0)
  | succ i ih =>
    rcases Nat.eq_zero_or_pos i with rfl | hpos'
    · exact hfirst
    · have hdeep := ih hpos' (Nat.le_of_succ_le hi)
      obtain hle | ⟨hop, hpop⟩ := hstep (m.after p i)
      · exact Nat.lt_of_lt_of_le hdeep hle
      · -- a step that takes an entry does not yet bring the depth back, for it is not the match
        have hne : depth (m.after p (i + 1)) ≠ depth m :=
          fun heq => h.first i hpos' hi ⟨hop, heq⟩
        rw [← after_succ] at hpop
        omega

end Machine

end Ippcode
