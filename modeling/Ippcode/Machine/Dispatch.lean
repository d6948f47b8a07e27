import Ippcode.Machine.Step

/-! # Records as they stand

An instruction record says with its opcode what is to be done and with its arguments to what. Here
a record is carried out as it stands, without its operands having been matched with its signature:
arguments are fetched by their position, and each is looked at when it is needed. A record that
does not fit may then fault in the middle, or crash: fetch an argument that is not there, or hand
its opcode to a family of operators that it does not belong to.
-/
namespace Ippcode

/-- What must never happen. -/
inductive Crash where
  | argumentMissing (index count : Nat)
  | notInFamily (op : Opcode)
  deriving DecidableEq, Repr

/-- Why a record is not carried out to its end. -/
inductive Stop where
  | fault (f : Fault)
  | crash (c : Crash)
  deriving DecidableEq, Repr

namespace Stop

def lift {α : Type} : Except Fault α → Except Stop α := Except.mapError .fault

end Stop

open Stop (lift)

namespace Operator.Family

def arithmetic (op : Opcode) : Value → Value → Except Stop Value
  | .int x, .int y =>
    match op with
    | .add => .ok (.int (x + y))
    | .sub => .ok (.int (x - y))
    | .mul => .ok (.int (x * y))
    | .idiv => lift ((quotient x y).map .int)
    | other => .error (.crash (.notInFamily other))
  | a, b => .error (.fault (.operandTypes op a b))

def relational (op : Opcode) (a b : Value) : Except Stop Value := do
  lift (bothAssigned op a b)
  if a.isNil || b.isNil then .error (.fault (.nilOrdered op))
  else match less? a b, less? b a with
    | some below, some above =>
      match op with
      | .lt => .ok (.bool below)
      | .gt => .ok (.bool above)
      | other => .error (.crash (.notInFamily other))
    | _, _ => .error (.fault (.operandTypes op a b))

def logical (op : Opcode) : Value → Value → Except Stop Value
  | .bool x, .bool y =>
    match op with
    | .and => .ok (.bool (x && y))
    | .or => .ok (.bool (x || y))
    | other => .error (.crash (.notInFamily other))
  | a, b => .error (.fault (.operandTypes op a b))

end Operator.Family

namespace Instruction

/-- The argument at a position, counted from 0. -/
def arg (i : Instruction) (k : Nat) : Except Stop Argument :=
  match i.args[k]? with
  | some a => .ok a
  | none => .error (.crash (.argumentMissing k i.args.length))

def varArg (i : Instruction) (k : Nat) : Except Stop VarRef := do
  match ← i.arg k with
  | .symbol (.var v) => .ok v
  | a => .error (.fault (.variableExpected a.kind))

/-- The position of the label that an argument names. -/
def labelArg (i : Instruction) (p : Program) (k : Nat) : Except Stop Nat := do
  match ← i.arg k with
  | .label name => lift (p.label name)
  | a => .error (.fault (.labelExpected a.kind))

def typeArg (i : Instruction) (k : Nat) : Except Stop DataType := do
  match ← i.arg k with
  | .type t => .ok t
  | _ => .error (.fault .typeExpected)

/-- What a function of symbols gives for an argument. -/
def symbolArg {α : Type} (i : Instruction) (k : Nat) (f : Symbol → Except Fault α) :
    Except Stop α := do
  match ← i.arg k with
  | .symbol s => lift (f s)
  | a => .error (.fault (.notSymbol a.kind))

end Instruction

namespace Machine

variable {ρ σ : Type}

/-- Goes on with a result, or faults in the given state. -/
def proceed {α : Type} (m : Machine ρ σ) (r : Except Stop α)
    (next : α → Except Crash (Outcome ρ σ)) : Except Crash (Outcome ρ σ) :=
  match r with
  | .ok a => next a
  | .error (.fault f) => .ok (.fault f m)
  | .error (.crash c) => .error c

def settle (m : Machine ρ σ) (r : Except Stop (Machine ρ σ)) : Except Crash (Outcome ρ σ) :=
  m.proceed r fun m' => .ok (.next m')

def sourceArg (m : Machine ρ σ) (i : Instruction) (k : Nat) : Except Stop Value :=
  i.symbolArg k (m.source i.opcode)

def sourceArgs (m : Machine ρ σ) (i : Instruction) : Except Stop (Value × Value) := do
  let a ← m.sourceArg i 1
  let b ← m.sourceArg i 2
  return (a, b)

def storeArg (m : Machine ρ σ) (i : Instruction) (v : Value) : Except Stop (Machine ρ σ) := do
  lift (m.store (← i.varArg 0) v)

variable [Reader ρ] [Writer σ]

/-- Carries out a record as it stands. -/
def dispatch (p : Program) (i : Instruction) (m : Machine ρ σ) : Except Crash (Outcome ρ σ) :=
  match i.opcode with
  | .move => m.settle do m.storeArg i (← i.symbolArg 1 m.copied)
  | .createFrame => .ok (.next { m with memory := m.memory.createTemporary })
  | .pushFrame => m.settle (lift (m.memory.pushTemporary.map fun memory => { m with memory }))
  | .popFrame => m.settle (lift (m.memory.popLocal.map fun memory => { m with memory }))
  | .defVar => m.settle do
    let dst ← i.varArg 0
    lift ((m.memory.declare dst).map fun memory => { m with memory })
  | .call => m.proceed (i.labelArg p 0) fun k =>
    .ok (.jump k { m with calls := m.calls.push (m.pc + 1) })
  | .ret => m.proceed (lift (m.calls.pop "call stack")) fun (k, calls) =>
    .ok (.jump k { m with calls })
  | .pushS => m.settle do
    let v ← i.symbolArg 0 m.copied
    return { m with operands := m.operands.push v }
  | .popS =>
    m.proceed (i.varArg 0) fun dst =>
    m.proceed (lift (m.operands.pop "operand stack")) fun (v, operands) =>
    let m' := { m with operands }
    m'.settle (lift (m'.store dst v))
  | .add | .sub | .mul | .idiv => m.settle do
    let (a, b) ← m.sourceArgs i
    m.storeArg i (← Operator.Family.arithmetic i.opcode a b)
  | .lt | .gt => m.settle do
    let (a, b) ← m.sourceArgs i
    m.storeArg i (← Operator.Family.relational i.opcode a b)
  | .eq => m.settle do
    let (a, b) ← m.sourceArgs i
    m.storeArg i (← lift (BinaryOp.eq.apply a b))
  | .and | .or => m.settle do
    let (a, b) ← m.sourceArgs i
    m.storeArg i (← Operator.Family.logical i.opcode a b)
  | .not => m.settle do m.storeArg i (← lift (UnaryOp.not.apply (← m.sourceArg i 1)))
  | .int2Char => m.settle do m.storeArg i (← lift (UnaryOp.int2Char.apply (← m.sourceArg i 1)))
  | .strLen => m.settle do m.storeArg i (← lift (UnaryOp.strLen.apply (← m.sourceArg i 1)))
  | .stri2Int => m.settle do
    let (a, b) ← m.sourceArgs i
    m.storeArg i (← lift (BinaryOp.stri2Int.apply a b))
  | .concat => m.settle do
    let (a, b) ← m.sourceArgs i
    m.storeArg i (← lift (BinaryOp.concat.apply a b))
  | .getChar => m.settle do
    let (a, b) ← m.sourceArgs i
    m.storeArg i (← lift (BinaryOp.getChar.apply a b))
  | .setChar => m.settle do
    let target ← m.sourceArg i 0
    let (index, replacement) ← m.sourceArgs i
    m.storeArg i (← lift (Operator.setChar target index replacement))
  | .read =>
    m.proceed (i.typeArg 1) fun type =>
    let (v, input) := Reader.read type m.input
    let m' := { m with input }
    m'.settle (m'.storeArg i (v.getD .nil))
  | .write => m.proceed (i.symbolArg 0 m.copied) fun v => .ok (m.put .out v)
  | .type => m.settle do m.storeArg i (.str (← i.symbolArg 1 m.value).typeName)
  | .label => .ok (.next m)
  | .jump => m.proceed (i.labelArg p 0) fun k => .ok (.jump k m)
  | .jumpIfEq | .jumpIfNeq =>
    let test : Except Stop (Nat × Bool) := do
      let k ← i.labelArg p 0
      let a ← i.symbolArg 1 m.value
      let b ← i.symbolArg 2 m.value
      return (k, ← lift (Operator.jumpEquals i.opcode a b))
    m.proceed test fun (k, r) =>
    .ok (if r = decide (i.opcode = .jumpIfEq) then .jump k m else .next m)
  | .exit => m.proceed (i.symbolArg 0 m.status) fun n => .ok (.exit n m)
  | .dPrint => m.proceed (i.symbolArg 0 m.copied) fun v => .ok (m.put .err v)
  | .brk => .ok (m.emit .err (.str (m.dump i.order)))

def dispatchStep (p : Program) (m : Machine ρ σ) : Except Crash (Progress ρ σ) :=
  match p.instruction? m.pc with
  | none => .ok (.ended 0 m)
  | some i => (m.dispatch p i).map Outcome.progress

def dispatchRun (p : Program) : Nat → Machine ρ σ → Except Crash (Progress ρ σ)
  | 0, m => .ok (.running m)
  | n + 1, m => do
    match ← m.dispatchStep p with
    | .running m' => dispatchRun p n m'
    | r => .ok r

end Machine

end Ippcode
