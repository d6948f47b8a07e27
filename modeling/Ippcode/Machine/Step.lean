import Ippcode.Machine

/-! # Running a program

`exec` carries out one line, `step` the line at the current position, and `run` a number of steps.
A line that faults is not completed and leaves the position where it is; what it did before the
fault remains: a popped operand is gone, what was read is used up, and what an output took before it
failed is written.
-/
namespace Ippcode

/-- What a line leads to, with the state that it leaves. -/
inductive Outcome (ρ : Type := Input) (σ : Type := Sink) where
  | next (m : Machine ρ σ)
  | jump (target : Nat) (m : Machine ρ σ)
  | exit (status : Nat) (m : Machine ρ σ)
  | fault (f : Fault) (m : Machine ρ σ)

/-- Where a run is: still going on, ended with a status, or failed. -/
inductive Progress (ρ : Type := Input) (σ : Type := Sink) where
  | running (m : Machine ρ σ)
  | ended (status : Nat) (m : Machine ρ σ)
  | failed (f : Fault) (m : Machine ρ σ)

variable {ρ σ : Type}

namespace Progress

def machine : Progress ρ σ → Machine ρ σ
  | running m | ended _ m | failed _ m => m

end Progress

namespace Outcome

/-- Where a run is after a line. A line that does not fault is completed, and the position moves
behind it or to the target. -/
def progress : Outcome ρ σ → Progress ρ σ
  | .next m => .running { m with pc := m.pc + 1, completed := m.completed + 1 }
  | .jump k m => .running { m with pc := k, completed := m.completed + 1 }
  | .exit n m => .ended n { m with completed := m.completed + 1 }
  | .fault f m => .failed f m

end Outcome

namespace Machine

/-- Goes on with the state that an attempt gives, or faults in the state before it. -/
def attempt (m : Machine ρ σ) : Except Fault (Machine ρ σ) → Outcome ρ σ
  | .ok m' => .next m'
  | .error f => .fault f m

/-- Where a conditional jump leads, and whether its operands are equal. The label comes first. -/
def jumpTest (m : Machine ρ σ) (p : Program) (op : Opcode) (target : String)
    (left right : Symbol) : Except Fault (Nat × Bool) := do
  let k ← p.label target
  let a ← m.value left
  let b ← m.value right
  return (k, ← Operator.jumpEquals op a b)

variable [Reader ρ] [Writer σ]

def emit (m : Machine ρ σ) (c : Channel) (v : Value) : Outcome ρ σ :=
  let (sink, result) := Writer.write (m.sink c) v
  let m' := m.withSink sink c
  match result with
  | .ok _ => .next m'
  | .error f => .fault f m'

/-- Prints a value on a channel; nil makes no call. -/
def put (m : Machine ρ σ) (c : Channel) (v : Value) : Outcome ρ σ :=
  match v.printed? with
  | some x => m.emit c x
  | none => .next m

def print (m : Machine ρ σ) (c : Channel) (src : Symbol) : Outcome ρ σ :=
  match m.copied src with
  | .error f => .fault f m
  | .ok v => m.put c v

def exec (p : Program) (line : Line) (m : Machine ρ σ) : Outcome ρ σ :=
  match line.command with
  | .move dst src => m.attempt do m.store dst (← m.copied src)
  | .createFrame => .next { m with memory := m.memory.createTemporary }
  | .pushFrame => m.attempt (m.memory.pushTemporary.map fun memory => { m with memory })
  | .popFrame => m.attempt (m.memory.popLocal.map fun memory => { m with memory })
  | .defVar dst => m.attempt ((m.memory.declare dst).map fun memory => { m with memory })
  | .call target =>
    match p.label target with
    | .ok k => .jump k { m with calls := m.calls.push (m.pc + 1) }
    | .error f => .fault f m
  | .ret =>
    match m.calls.pop "call stack" with
    | .ok (k, calls) => .jump k { m with calls }
    | .error f => .fault f m
  | .pushS src => m.attempt ((m.copied src).map fun v => { m with operands := m.operands.push v })
  | .popS dst =>
    match m.operands.pop "operand stack" with
    | .ok (v, operands) =>
      let m' := { m with operands }
      m'.attempt (m'.store dst v)
    | .error f => .fault f m
  | .unary op dst src => m.attempt do
    let a ← m.source op.opcode src
    m.store dst (← op.apply a)
  | .binary op dst left right => m.attempt do
    let a ← m.source op.opcode left
    let b ← m.source op.opcode right
    m.store dst (← op.apply a b)
  | .setChar dst index replacement => m.attempt do
    let s ← m.source .setChar (.var dst)
    let i ← m.source .setChar index
    let r ← m.source .setChar replacement
    m.store dst (← Operator.setChar s i r)
  | .read dst type =>
    let (v, input) := Reader.read type m.input
    let m' := { m with input }
    m'.attempt (m'.store dst (v.getD .nil))
  | .write src => m.print .out src
  | .type dst src => m.attempt do m.store dst (.str (← m.value src).typeName)
  | .label _ => .next m
  | .jump target =>
    match p.label target with
    | .ok k => .jump k m
    | .error f => .fault f m
  | .jumpIf equal target left right =>
    match m.jumpTest p line.command.opcode target left right with
    | .ok (k, r) => if r = equal then .jump k m else .next m
    | .error f => .fault f m
  | .exit s =>
    match m.status s with
    | .ok n => .exit n m
    | .error f => .fault f m
  | .dPrint src => m.print .err src
  | .brk => m.emit .err (.str (m.dump line.order))

/-- Carries out the line at the current position. A program ends with status 0 behind its last
line. -/
def step (p : Program) (m : Machine ρ σ) : Progress ρ σ :=
  match p.line? m.pc with
  | none => .ended 0 m
  | some line => (m.exec p line).progress

def run (p : Program) : Nat → Machine ρ σ → Progress ρ σ
  | 0, m => .running m
  | n + 1, m =>
    match m.step p with
    | .running m' => run p n m'
    | r => r

end Machine

end Ippcode
