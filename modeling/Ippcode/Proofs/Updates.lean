import Ippcode.Proofs.Memory
import Ippcode.Proofs.Steps

/-! # Memory after a line

Whatever a line computes, it does one of few things to memory: it changes the frame that a tag
denotes by declaring or assigning one variable, it creates, pushes or pops a frame, or it leaves
memory alone. All that is shown of frames along a run is shown for these.
-/
namespace Ippcode

namespace Machine

variable {ρ σ : Type} [Reader ρ]

/-- The variable that a command assigns, and the value, if there is one to assign. -/
def assigned? (m : Machine ρ σ) : Command → Option (VarRef × Value)
  | .popS dst => m.operands.head?.map fun v => (dst, v)
  | .read dst type => some (dst, m.nextRead type)
  | c => (m.computed c).bind fun (dst, r) => r.toOption.map fun v => (dst, v)

/-- The tag of the frame that a command changes, and the change. -/
def change? (m : Machine ρ σ) : Command → Option (FrameTag × (Frame → Except Fault Frame))
  | .defVar dst => some (dst.frame, fun f => f.declare dst.name)
  | c => (m.assigned? c).map fun (dst, v) => (dst.frame, fun f => f.set dst.name v)

/-- What a command makes of memory. -/
inductive Remembers (m : Machine ρ σ) (c : Command) : Memory → Prop
  | kept (h : m.change? c = none) : Remembers m c m.memory
  | changed {tag : FrameTag} {change : Frame → Except Fault Frame} {mem : Memory}
    (h : m.change? c = some (tag, change)) (hu : m.memory.update tag change = .ok mem) :
    Remembers m c mem
  | refused {tag : FrameTag} {change : Frame → Except Fault Frame} {f : Fault}
    (h : m.change? c = some (tag, change)) (hu : m.memory.update tag change = .error f) :
    Remembers m c m.memory
  | created (hc : c = .createFrame) : Remembers m c m.memory.createTemporary
  | pushed {mem : Memory} (hc : c = .pushFrame) (h : m.memory.pushTemporary = .ok mem) :
    Remembers m c mem
  | popped {mem : Memory} (hc : c = .popFrame) (h : m.memory.popLocal = .ok mem) :
    Remembers m c mem

variable {m : Machine ρ σ} {c : Command}

theorem assigned?_of_computed {dst : VarRef} {r : Except Fault Value}
    (h : m.computed c = some (dst, r)) : m.assigned? c = r.toOption.map fun v => (dst, v) := by
  cases c <;> cases h <;> rfl

theorem change?_of_computed {dst : VarRef} {r : Except Fault Value}
    (h : m.computed c = some (dst, r)) :
    m.change? c = r.toOption.map fun v => (dst.frame, fun f => f.set dst.name v) := by
  have hassigned := assigned?_of_computed h
  cases c with
  | defVar => cases h
  | _ => simp only [change?, hassigned, Option.map_map, Function.comp_def]

/-- A change declares the variable of a `DEFVAR` or assigns one. -/
theorem change?_eq_some {tag : FrameTag} {change : Frame → Except Fault Frame}
    (h : m.change? c = some (tag, change)) :
    (∃ dst, c = .defVar dst ∧ tag = dst.frame ∧ change = fun f => f.declare dst.name) ∨
      ∃ dst v, m.assigned? c = some (dst, v) ∧ tag = dst.frame ∧
        change = fun f => f.set dst.name v := by
  cases c with
  | defVar dst =>
    cases h
    exact .inl ⟨dst, rfl, rfl, rfl⟩
  | _ =>
    simp only [change?, Option.map_eq_some_iff] at h
    obtain ⟨⟨dst, v⟩, hassigned, heq⟩ := h
    cases heq
    exact .inr ⟨dst, v, hassigned, rfl, rfl⟩

variable [Writer σ] {p : Program}

theorem Rule.remembers {order : Int64} {o : Outcome ρ σ} (h : Rule p order m c o) :
    Remembers m c o.progress.machine.memory := by
  cases h with
  | assign hc hs => exact .changed (change?_of_computed hc) hs
  | notComputed hc => exact .kept (change?_of_computed hc)
  | notAssigned hc hs => exact .refused (change?_of_computed hc) hs
  | createFrame => exact .created rfl
  | pushFrame h => exact .pushed rfl h
  | popFrame h => exact .popped rfl h
  | defVar h => exact .changed rfl h
  | notDeclared h => exact .refused rfl h
  | popS h hs => exact .changed (by simp only [change?, assigned?, h]; rfl) hs
  | nothingToPop h => exact .kept (by simp only [change?, assigned?, h]; rfl)
  | popLost h hs => exact .refused (by simp only [change?, assigned?, h]; rfl) hs
  | read hs => exact .changed rfl hs
  | readLost hs => exact .refused rfl hs
  | _ => exact .kept rfl

/-- Every step is at the end of the program, where nothing changes, or carries out a command. -/
theorem remembers_of_step (m : Machine ρ σ) :
    m.command? p = none ∧ (m.step p).machine = m ∨
      ∃ c, m.command? p = some c ∧ Remembers m c (m.step p).machine.memory := by
  cases hl : p.line? m.pc with
  | none =>
    refine .inl ⟨by rw [command?, hl, Option.map_none], ?_⟩
    rw [step_of_end hl, Progress.machine]
  | some line =>
    obtain ⟨o, hr, ho⟩ := rule_of_line hl
    refine .inr ⟨line.command, command?_of_line hl, ?_⟩
    rw [ho]
    exact hr.remembers

end Machine

end Ippcode
