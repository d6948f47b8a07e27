import Ippcode.Command

/-! # Programs

A program is a list of instructions with fitting operands, positive and distinct orders and
distinct labels, sorted by order, together with the position of each label.
-/
namespace Ippcode

/-- Positions of labels; every name occurs once. -/
abbrev LabelTable := List (String × Nat)

namespace LabelTable

/-- Adds the labels of instructions that stand from position `k` on. -/
def extend (table : LabelTable) (k : Nat) : List Instruction → Except Fault LabelTable
  | [] => .ok table
  | ⟨order, .label, args⟩ :: rest =>
    match args with
    | .label name :: _ =>
      if (table.lookup name).isSome then .error (.labelExists name)
      else extend ((name, k) :: table) (k + 1) rest
    | _ => .error (.labelWithoutName order)
  | _ :: rest => extend table (k + 1) rest

/-- The labels of a list of instructions, whose operands need not fit. -/
def ofInstructions (is : List Instruction) : Except Fault LabelTable := extend [] 0 is

end LabelTable

structure Line where
  order : Int64
  command : Command
  deriving DecidableEq, Repr

namespace Line

def ofInstruction (i : Instruction) : Except Fault Line :=
  i.command.map fun c => ⟨i.order, c⟩

def instruction (l : Line) : Instruction := ⟨l.order, l.command.opcode, l.command.args⟩

/-- The first order that the next line has too. -/
def repeated? : List Line → Option Int64
  | a :: b :: rest => if a.order = b.order then some a.order else repeated? (b :: rest)
  | _ => none

def sort (lines : List Line) : List Line := lines.mergeSort fun a b => decide (a.order ≤ b.order)

end Line

structure Program where
  lines : Array Line
  labels : LabelTable
  deriving DecidableEq, Repr

namespace Program

def ofSorted (lines : List Line) : Except Fault Program :=
  match Line.repeated? lines with
  | some order => .error (.duplicateOrder order)
  | none =>
    (LabelTable.ofInstructions (lines.map Line.instruction)).map fun labels =>
      ⟨lines.toArray, labels⟩

/-- Checks instructions, sorts them and finds their labels. -/
def ofInstructions (is : List Instruction) : Except Fault Program := do
  let lines ← is.mapM Line.ofInstruction
  match lines.find? fun l => decide (l.order ≤ 0) with
  | some l => .error (.orderNotPositive l.order)
  | none => ofSorted (Line.sort lines)

def size (p : Program) : Nat := p.lines.size

def line? (p : Program) (k : Nat) : Option Line := p.lines[k]?

def instruction? (p : Program) (k : Nat) : Option Instruction := (p.line? k).map Line.instruction

def label (p : Program) (name : String) : Except Fault Nat :=
  match p.labels.lookup name with
  | some k => .ok k
  | none => .error (.labelMissing name)

end Program

end Ippcode
