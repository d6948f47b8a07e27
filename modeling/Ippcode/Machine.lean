import Ippcode.Input
import Ippcode.Memory
import Ippcode.Program
import Ippcode.Sink
import Ippcode.Stack
import Ippcode.Text.Escape

/-! # The machine

The state in which a program runs: memory, the two stacks, the position of the next line, the
number of completed instructions, the input that is left and the two outputs. The devices are lines
of input and sinks of bytes unless others are named. Symbols are resolved here, and the three ways
in which an unassigned variable is treated are told apart.
-/
namespace Ippcode

/-- The two outputs: of the program, and of its diagnostics. -/
inductive Channel where
  | out | err
  deriving DecidableEq, Repr

structure Machine (ρ : Type := Input) (σ : Type := Sink) where
  memory : Memory
  calls : Stack Nat
  operands : Stack Value
  pc : Nat
  completed : Nat
  input : ρ
  stdout : σ
  stderr : σ

/-- What printing a value writes: a string without its escapes, and nothing for nil. -/
def Value.printed? : Value → Option Value
  | .str s => some (.str (Text.Escape.decode s))
  | .nil | .uninit => none
  | v => some v

namespace Machine

variable {ρ σ : Type}

def start (input : ρ) (stdout stderr : σ) : Machine ρ σ where
  memory := .empty
  calls := []
  operands := []
  pc := 0
  completed := 0
  input := input
  stdout := stdout
  stderr := stderr

/-- The value of a symbol, which is `uninit` for an unassigned variable. -/
def value (m : Machine ρ σ) : Symbol → Except Fault Value
  | .const v => .ok v
  | .var v => m.memory.load v

def argument (m : Machine ρ σ) : Argument → Except Fault Value
  | .symbol s => m.value s
  | a => .error (.notSymbol a.kind)

/-- The value of an operator's source; it is a fault of types if there is none yet. -/
def source (m : Machine ρ σ) (op : Opcode) (s : Symbol) : Except Fault Value := do
  match ← m.value s with
  | .uninit => .error (.unassignedSource op s)
  | v => .ok v

/-- The value to be copied or printed; it is missing if there is none yet. -/
def copied (m : Machine ρ σ) (s : Symbol) : Except Fault Value := do
  match ← m.value s with
  | .uninit => .error (.unassigned s)
  | v => .ok v

def store (m : Machine ρ σ) (dst : VarRef) (v : Value) : Except Fault (Machine ρ σ) :=
  (m.memory.store dst v).map fun memory => { m with memory }

/-- The status of `EXIT`: an integer literal of one digit. -/
def status (m : Machine ρ σ) (s : Symbol) : Except Fault Nat := do
  match s, ← m.value s with
  | .const _, .int code =>
    if 0 ≤ code.toInt ∧ code.toInt ≤ 9 then .ok code.toInt.toNat else .error (.exitCodeRange code)
  | _, _ => .error .exitNotLiteral

def sink (m : Machine ρ σ) : Channel → σ
  | .out => m.stdout
  | .err => m.stderr

def withSink (m : Machine ρ σ) (s : σ) : Channel → Machine ρ σ
  | .out => { m with stdout := s }
  | .err => { m with stderr := s }

def drained (m : Machine) : Machine :=
  { m with stdout := .empty m.stdout.limit, stderr := .empty m.stderr.limit }

/-- What `BREAK` writes at the line of the given order. -/
def dump (m : Machine ρ σ) (order : Int64) : String :=
  let tf := if m.memory.temporary.isSome then "defined" else "undefined"
  "\n======Break======\n" ++
  s!"Instruction order number: {Text.Decimal.render order}\n" ++
  s!"Completed instructions: {m.completed.repr}\n" ++
  s!"Frames: TF {tf}, LF depth {m.memory.depth.repr}\n" ++
  s!"Stacks: call {m.calls.length.repr}, operand {m.operands.length.repr}\n" ++
  "GF:\n" ++
  String.join (m.memory.global.sorted.map fun e => s!"\t{e.fst} : {e.snd.display}\n")

end Machine

end Ippcode
