import Ippcode.Machine.Step

/-! # Traces

The events of a run in their order: each line that is begun, frames pushed and popped, lines
requested from the input and values handed to the outputs. `runTraced` is `run` with its events.
-/
namespace Ippcode

inductive Event where
  | loaded (instructions labels : Nat)
  | began (pc : Nat) (order : Int64) (opcode : Opcode)
  | framePushed (depth : Nat)
  | framePopped (depth : Nat)
  | requested (type : DataType) (value : Option Value)
  /-- A value handed to an output, whether or not it then fits. -/
  | printed (channel : Channel) (value : Value)
  deriving DecidableEq, Repr

namespace Event

def note? : Event → Option String
  | loaded instructions labels =>
    some s!"program loaded instructions={instructions.repr} labels={labels.repr}"
  | began pc order opcode =>
    some s!"step pc={pc.repr} order={Text.Decimal.render order} opcode={opcode.name}"
  | framePushed depth => some s!"frame pushed depth={depth.repr}"
  | framePopped depth => some s!"frame popped depth={depth.repr}"
  | requested .. | printed .. => none

end Event

namespace Program

def loadedEvent (p : Program) : Event := .loaded p.size p.labels.length

end Program

namespace Machine

variable {ρ σ : Type} [Reader ρ] [Writer σ]

/-- The value that printing a symbol hands to a channel. -/
def printEvents (m : Machine ρ σ) (c : Channel) (src : Symbol) : List Event :=
  match m.copied src with
  | .ok v => (v.printed?.map (Event.printed c)).toList
  | .error _ => []

def events (p : Program) (line : Line) (m : Machine ρ σ) : List Event :=
  .began m.pc line.order line.command.opcode ::
    match line.command, m.exec p line with
    | .pushFrame, .next m' => [.framePushed m'.memory.depth]
    | .popFrame, .next m' => [.framePopped m'.memory.depth]
    | .read _ type, _ => [.requested type (Reader.read type m.input).1]
    | .write src, _ => m.printEvents .out src
    | .dPrint src, _ => m.printEvents .err src
    | .brk, _ => [.printed .err (.str (m.dump line.order))]
    | _, _ => []

def stepEvents (p : Program) (m : Machine ρ σ) : List Event :=
  match p.line? m.pc with
  | some line => m.events p line
  | none => []

/-- At most so many steps, with their events added to a log. -/
def runTraced (p : Program) : Nat → Machine ρ σ → Array Event → Progress ρ σ × Array Event
  | 0, m, log => (.running m, log)
  | n + 1, m, log =>
    let log := log ++ m.stepEvents p
    match m.step p with
    | .running m' => runTraced p n m' log
    | r => (r, log)

/-- Keeping a log makes no difference to the run. -/
theorem fst_runTraced (p : Program) (n : Nat) (m : Machine ρ σ) (log : Array Event) :
    (runTraced p n m log).1 = run p n m := by
  induction n generalizing m log with
  | zero => rfl
  | succ n ih =>
    unfold runTraced run
    cases m.step p with
    | running m' => exact ih m' _
    | ended | failed => rfl

end Machine

end Ippcode
