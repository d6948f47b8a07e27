import Ippcode.Proofs.Access
import Ippcode.Proofs.ControlFlow

/-! # Lines in a row

What a few lines do if they are carried out one after the other, in whatever state and wherever they
stand. A line that does not lead to the next one ends the row, and its outcome is that of the row.
A program in which the lines do stand in a row comes to the same when it is run from the first one.
-/
namespace Ippcode

variable {ρ σ : Type}

/-- The lines stand in a program from a position on. -/
def Program.StandsAt (p : Program) : Nat → List Line → Prop
  | _, [] => True
  | k, line :: rest => p.line? k = some line ∧ p.StandsAt (k + 1) rest

namespace Machine

/-- The state in which the line behind a completed one is carried out. -/
def advanced (m : Machine ρ σ) : Machine ρ σ :=
  { m with pc := m.pc + 1, completed := m.completed + 1 }

variable [Reader ρ] [Writer σ]

/-- Carries out a line and, as long as each one leads to the next, the lines behind it. -/
def execRow (p : Program) (line : Line) : List Line → Machine ρ σ → Outcome ρ σ
  | [], m => m.exec p line
  | next :: rest, m =>
    match m.exec p line with
    | .next m' => execRow p next rest m'.advanced
    | o => o

variable {p : Program} {m m' : Machine ρ σ} {line next : Line} {rest : List Line} {f : Fault}

theorem execRow_of_next (h : m.exec p line = .next m') :
    m.execRow p line (next :: rest) = m'.advanced.execRow p next rest := by
  simp only [execRow, h]

theorem execRow_of_fault (h : m.exec p line = .fault f m') (rest : List Line) :
    m.execRow p line rest = .fault f m' := by
  cases rest <;> simp only [execRow, h]

theorem run_one (p : Program) (m : Machine ρ σ) : m.run p 1 = m.step p := by
  rcases run_succ_cases p m 0 with ⟨m', hs, hrun⟩ | ⟨_, hrun⟩
  · rw [hrun, hs]
    rfl
  · exact hrun

/-- A program that is run from where lines stand in a row carries out the row, in as many steps as
the row goes on for. -/
theorem exists_run_eq_execRow (h : p.StandsAt m.pc (line :: rest)) :
    ∃ n ≤ rest.length, m.run p (n + 1) = (m.execRow p line rest).progress := by
  have hstep : m.step p = (m.exec p line).progress := step_of_line h.1
  induction rest generalizing m line with
  | nil => exact ⟨0, Nat.le_refl 0, (run_one p m).trans hstep⟩
  | cons next rest ih =>
    cases hexec : m.exec p line with
    | next m' =>
      have hr : Rule p line.order m line.command (.next m') := hexec ▸ rule_exec
      have htail : p.StandsAt m'.advanced.pc (next :: rest) := by
        change p.StandsAt (m'.pc + 1) _
        rw [hr.control_of_next.1]
        exact h.2
      obtain ⟨n, hn, hrun⟩ := ih htail (step_of_line htail.1)
      refine ⟨n + 1, Nat.succ_le_succ hn, ?_⟩
      rw [hexec] at hstep
      rw [run_of_running hstep, execRow_of_next hexec]
      exact hrun
    | jump | exit | fault =>
      refine ⟨0, Nat.zero_le _, ?_⟩
      simp only [Nat.zero_add, run_one, hstep, execRow, hexec]

/-- An operator that gives a result assigns it, to be read by the next line. -/
theorem exec_binary (order : Int64) (op : BinaryOp) {dst : VarRef} {a b : Symbol} {x y v : Value}
    (ha : m.source op.opcode a = .ok x) (hb : m.source op.opcode b = .ok y)
    (hv : op.apply x y = .ok v) (hdst : m.memory.Has dst) :
    ∃ memory, m.exec p ⟨order, .binary op dst a b⟩ = .next { m with memory } ∧
      memory.load dst = .ok v := by
  have hc : m.computed (.binary op dst a b) = some (dst, .ok v) := by
    rw [computed, ha, hb, ← hv]
    rfl
  obtain ⟨memory, hs⟩ := Memory.exists_store_iff.2 hdst
  exact ⟨memory, exec_of_rule (.assign hc hs), Memory.load_of_store hs⟩

end Machine

end Ippcode
