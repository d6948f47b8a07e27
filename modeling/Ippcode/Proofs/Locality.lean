import Ippcode.Proofs.Likeness

/-! # What lies below

Code that never asks for more than its stacks hold behaves in the same way wherever it is called
from: return positions, operands and local frames that lie below its own do not matter to it, and
it leaves them as they are.
-/
namespace Ippcode

open Writer (Unfailing)

namespace Machine

variable {ρ σ : Type}

/-- The state with more at the bottoms of its stacks. -/
def above (m : Machine ρ σ) (calls : Stack Nat) (operands : Stack Value) (locals : List Frame) :
    Machine ρ σ :=
  { m with
    memory := { m.memory with locals := m.memory.locals ++ locals }
    calls := m.calls ++ calls
    operands := m.operands ++ operands }

/-- One state has more at the bottoms of its stacks, and all else that a program can ask for is the
same in both. -/
structure Deepens (s s' : Machine ρ σ) (calls : Stack Nat) (operands : Stack Value)
    (locals : List Frame) : Prop where
  pc : s'.pc = s.pc
  global : s'.memory.global = s.memory.global
  temporary : s'.memory.temporary = s.memory.temporary
  input : s'.input = s.input
  stdout : s'.stdout = s.stdout
  calls : s'.calls = s.calls ++ calls
  operands : s'.operands = s.operands ++ operands
  locals : s'.memory.locals = s.memory.locals ++ locals

end Machine

namespace Likeness

variable {calls : Stack Nat} {operands : Stack Value} {locals : List Frame} {ahead : Int}

/-- Nothing differs but how deep the stacks are and how many instructions were completed. -/
def deepening (calls : Stack Nat) (operands : Stack Value) (locals : List Frame) (ahead : Int) :
    Likeness :=
  { Likeness.refl with calls, operands, locals, ahead }

theorem program_deepening (p : Program) : p.Like (deepening calls operands locals ahead) p := by
  refine Program.like_of_map rfl ?_ fun name => (Renaming.result_refl _).symm
  have hline : (deepening calls operands locals ahead).line = id := by
    funext l
    simp [line, deepening, refl]
  rw [hline, Array.map_id]

theorem machine_deepening {ρ σ : Type} (stderr : σ) :
    (deepening calls operands locals ahead).machine stderr = fun m : Machine ρ σ =>
      { m.above calls operands locals with
        completed := (m.completed + ahead).toNat
        stderr } := by
  funext m
  have hmemory := memory_of_refl (φ := deepening calls operands locals ahead) rfl m.memory
  simp only [machine, hmemory]
  simp [deepening, refl, Machine.above]

end Likeness

namespace Machine

variable {ρ σ : Type} {s s' : Machine ρ σ} {calls : Stack Nat} {operands : Stack Value}
  {locals : List Frame}

variable [Writer σ]

theorem Deepens.like (h : s.Deepens s' calls operands locals) (herr : Unfailing s.stderr)
    (herr' : Unfailing s'.stderr) :
    s.Like (.deepening calls operands locals (s'.completed - s.completed)) s' where
  memory := by
    rw [Likeness.memory_of_refl rfl]
    change (⟨s'.memory.global, s'.memory.temporary, s'.memory.locals⟩ : Memory) = _
    rw [h.global, h.temporary, h.locals]
    rfl
  calls := by simpa [Likeness.deepening, Likeness.refl] using h.calls
  operands := h.operands
  pc := h.pc
  completed := by
    change (s'.completed : Int) = s.completed + (s'.completed - s.completed)
    omega
  input := h.input
  stdout := h.stdout
  unfailing := herr
  unfailing' := herr'

variable [Reader ρ] {p : Program} {n : Nat}

/-- A run that does not fail at a bottom within `n` steps does not within fewer. -/
theorem not_atBottom_of_le (hn : ∀ f m, s.run p n = .failed f m → ¬ f.AtBottom) {k : Nat}
    (hk : k ≤ n) : ∀ f m, s.run p k = .failed f m → ¬ f.AtBottom := by
  intro f m hf
  have hover : (s.run p k).Over := by simp [hf, Progress.Over]
  have hrun := run_add_of_over hover (n - k)
  rw [Nat.add_sub_cancel' hk, hf] at hrun
  exact hn f m hrun

/-- Code does not see what lies below the entries of its stacks that it uses. If a run of so many
steps does not fail for want of an entry, then with any entries added at the bottoms of the call
stack, the operand stack and the stack of local frames it takes the same steps to the same outcome,
and these entries are at the bottoms still. The diagnostics may differ, as long as they do not fail;
they and the count of instructions say nothing of what the code does. -/
theorem context_unobserved (h : s.Deepens s' calls operands locals) (herr : Unfailing s.stderr)
    (herr' : Unfailing s'.stderr) (hn : ∀ f m, s.run p n = .failed f m → ¬ f.AtBottom) :
    ∀ k ≤ n, s'.run p k = (s.run p k).map id fun a =>
      { a.above calls operands locals with
        completed := a.completed + s'.completed - s.completed
        stderr := (s'.run p k).machine.stderr } := by
  intro k hk
  have hlike := (h.like herr herr').run (Likeness.program_deepening p) k
  have hrun := hlike.eq_map fun f m hf hhides => not_atBottom_of_le hn hk f m hf hhides.2
  have hcompleted : ∀ c : Nat, (c + ((s'.completed : Int) - s.completed)).toNat =
      c + s'.completed - s.completed := by
    intro c
    omega
  let φ := Likeness.deepening calls operands locals (s'.completed - s.completed)
  have hfault : φ.names.fault = id := funext Renaming.fault_refl
  rw [hfault, Likeness.machine_deepening] at hrun
  simp only [hcompleted] at hrun
  exact hrun

/-- A function that takes an operand into a local variable and returns, called once by itself and
once from the middle of another. -/
theorem context_unobserved_called :
    ∃ (p : Program) (s s' a : Machine), s.run p 4 = .ended 0 a ∧ s'.calls = [5, 7] ∧
      s'.run p 4 = .ended 0 { a with
        memory := { a.memory with locals := a.memory.locals ++ [.empty] }
        calls := [7]
        operands := [.nil]
        completed := 9
        stderr := (s'.run p 4).machine.stderr } := by
  let p : Program := ⟨#[⟨1, .label "f"⟩, ⟨2, .popS ⟨.lf, "x"⟩⟩, ⟨3, .ret⟩], [("f", 0)]⟩
  let s : Machine :=
    { start ⟨[]⟩ (.empty none) (.empty none) with
      memory := ⟨.empty, none, [⟨[("x", .uninit)], by decide⟩]⟩
      calls := [5]
      operands := [.int 1] }
  let s' : Machine := { s.above [7] [.nil] [.empty] with completed := 6 }
  have h : s.Deepens s' [7] [.nil] [.empty] := ⟨rfl, rfl, rfl, rfl, rfl, rfl, rfl, rfl⟩
  have herr : Unfailing s.stderr := Sink.unfailing_of_unlimited rfl
  have hn : ∀ f m, s.run p 4 = .failed f m → ¬ f.AtBottom := by
    intro f m hf
    cases hf
  exact ⟨p, s, s', _, rfl, rfl, context_unobserved h herr herr hn 4 (Nat.le_refl 4)⟩

end Machine

end Ippcode
