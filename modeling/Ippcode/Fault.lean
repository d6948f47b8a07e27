import Ippcode.Operand

/-! # Faults

Everything that can go wrong, as causes. Each cause has a kind, which fixes the process status,
and a detail; the message is the heading of the kind followed by the detail. A report adds the
contexts in which a failure was met.
-/
namespace Ippcode

inductive FaultKind where
  | parameter | inputFile | output | sourceFormat | programStructure | semantic | operandType
  | variableAccess | frameAccess | missingValue | operandValue | stringOperation
  deriving DecidableEq, Repr

namespace FaultKind

/-- The process status of a failure of this kind. -/
def exitCode : FaultKind → Nat
  | .parameter => 10
  | .inputFile => 11
  | .output => 12
  | .sourceFormat => 31
  | .programStructure => 32
  | .semantic => 52
  | .operandType => 53
  | .variableAccess => 54
  | .frameAccess => 55
  | .missingValue => 56
  | .operandValue => 57
  | .stringOperation => 58

def heading : FaultKind → String
  | .parameter => "invalid parameters: "
  | .inputFile => "cannot read "
  | .output => "output failed: "
  | .sourceFormat => "malformed instruction document: "
  | .programStructure => "invalid program structure: "
  | .semantic => "semantic error: "
  | .operandType => "operand type error: "
  | .variableAccess => "variable access error: "
  | .frameAccess => "frame access error: "
  | .missingValue => "missing value: "
  | .operandValue => "operand value error: "
  | .stringOperation => "string operation error: "

def message (k : FaultKind) (detail : String) : String := k.heading ++ detail

end FaultKind

inductive Fault where
  /-- Neither a source nor an input file was named. -/
  | noFileNamed
  | unreadable (what : String) (reason : String)
  | outputFailed (reason : String)
  | malformedDocument (reason : String)
  | unknownType (text : String)
  | notVariable (text : String)
  | unknownFrame (tag : String)
  | unnamedVariable (text : String)
  | invalidLiteral (type text : String)
  | emptyLabel
  | unknownArgumentKind (kind : String)
  | operandCount (op : Opcode) (order : Int64) (expected got : Nat)
  | operandKind (op : Opcode) (order : Int64) (position : Nat) (expected : Slot)
    (got : ArgumentKind)
  | unsupportedLanguage (name : String)
  | unknownOpcode (name : String) (order : Int64)
  | orderNotPositive (order : Int64)
  | duplicateOrder (order : Int64)
  | labelWithoutName (order : Int64)
  | notSymbol (kind : ArgumentKind)
  | variableExpected (got : ArgumentKind)
  | labelExpected (got : ArgumentKind)
  | typeExpected
  | labelExists (name : String)
  | labelMissing (name : String)
  | operandTypes (op : Opcode) (a b : Value)
  | operandType (op : Opcode) (a : Value)
  | unassignedOperand (op : Opcode)
  | unassignedSource (op : Opcode) (source : Symbol)
  | nilOrdered (op : Opcode)
  | targetType (target : Value)
  | exitNotLiteral
  | variableExists (name : String)
  | variableMissing (name : String)
  | noTemporaryFrame
  | noLocalFrame
  | emptyStack (name : String)
  | unassigned (source : Symbol)
  | divisionByZero
  | exitCodeRange (code : Int64)
  | characterCode (code : Int64)
  | indexRange (op : Opcode) (index : Int64) (length : Nat)
  | emptyReplacement
  deriving DecidableEq, Repr

namespace Fault

open Text.Decimal (render)

def kind : Fault → FaultKind
  | noFileNamed => .parameter
  | unreadable .. => .inputFile
  | outputFailed _ => .output
  | malformedDocument _ => .sourceFormat
  | unknownType _ | notVariable _ | unknownFrame _ | unnamedVariable _ | invalidLiteral ..
  | emptyLabel | unknownArgumentKind _ | operandCount .. | operandKind .. | unsupportedLanguage _
  | unknownOpcode .. | orderNotPositive _ | duplicateOrder _ | labelWithoutName _ | notSymbol _
  | variableExpected _ | labelExpected _ | typeExpected => .programStructure
  | labelExists _ | labelMissing _ => .semantic
  | operandTypes .. | operandType .. | unassignedOperand _ | unassignedSource .. | nilOrdered _
  | targetType _ | exitNotLiteral => .operandType
  | variableExists _ | variableMissing _ => .variableAccess
  | noTemporaryFrame | noLocalFrame => .frameAccess
  | emptyStack _ | unassigned _ => .missingValue
  | divisionByZero | exitCodeRange _ => .operandValue
  | characterCode _ | indexRange .. | emptyReplacement => .stringOperation

def detail : Fault → String
  | noFileNamed => "at least one of --source and --input is required"
  | unreadable what reason => s!"{what}: {reason}"
  | outputFailed reason => reason
  | malformedDocument reason => reason
  | unknownType text => s!"unknown type `{text}`"
  | notVariable text => s!"`{text}` is not a variable"
  | unknownFrame tag => s!"unknown frame `{tag}`"
  | unnamedVariable text => s!"`{text}` has no variable name"
  | invalidLiteral type text => s!"invalid {type} literal `{text}`"
  | emptyLabel => "empty label name"
  | unknownArgumentKind kind => s!"unknown argument kind `{kind}`"
  | operandCount op order expected got =>
    s!"{op.name} (order {render order}) takes {expected.repr} operands, got {got.repr}"
  | operandKind op order position expected got =>
    s!"{op.name} (order {render order}) operand {position.repr} expects {expected.name}, " ++
      s!"got {got.name}"
  | unsupportedLanguage name => s!"unsupported language `{name}`"
  | unknownOpcode name order => s!"unknown opcode `{name}` (order {render order})"
  | orderNotPositive order => s!"instruction order must be positive, got {render order}"
  | duplicateOrder order => s!"duplicate instruction order {render order}"
  | labelWithoutName order => s!"LABEL (order {render order}) has no label operand"
  | notSymbol kind => s!"{kind.name} operand is not a symbol"
  | variableExpected got => s!"expected a variable, got {got.name}"
  | labelExpected got => s!"expected a label, got {got.name}"
  | typeExpected => "READ expects a type operand"
  | labelExists name => s!"label `{name}` already exists"
  | labelMissing name => s!"label `{name}` does not exist"
  | operandTypes op a b =>
    s!"{op.name} cannot take operands of type `{a.typeName}` and `{b.typeName}`"
  | operandType op a => s!"{op.name} cannot take operand of type `{a.typeName}`"
  | unassignedOperand op => s!"{op.name} operand is an uninitialized variable"
  | unassignedSource op source => s!"{op.name} operand {source.describe} is uninitialized"
  | nilOrdered op => s!"{op.name} cannot compare nil"
  | targetType target => s!"SETCHAR target must hold a string, holds `{target.typeName}`"
  | exitNotLiteral => "EXIT expects an integer literal"
  | variableExists name => s!"variable `{name}` is already defined"
  | variableMissing name => s!"variable `{name}` does not exist"
  | noTemporaryFrame => "TF does not exist"
  | noLocalFrame => "local frame stack is empty"
  | emptyStack name => s!"{name} is empty"
  | unassigned source => s!"{source.describe} is uninitialized"
  | divisionByZero => "division by zero"
  | exitCodeRange code => s!"invalid exit code {render code}"
  | characterCode code => s!"{render code} is not a valid character code"
  | indexRange op index length =>
    s!"{op.name} index {render index} out of range for string of length {length.repr}"
  | emptyReplacement => "SETCHAR replacement string is empty"

def message (f : Fault) : String := f.kind.message f.detail

def exitCode (f : Fault) : Nat := f.kind.exitCode

end Fault

/-- What lies at the bottom of a report: a failure of some kind, or one of no known kind. -/
inductive Cause where
  | fault (kind : FaultKind) (detail : String)
  | other (message : String)
  deriving DecidableEq, Repr

/-- One of the errors that a report goes through on its way down. -/
inductive Link where
  | context (text : String)
  | fault (kind : FaultKind) (detail : String)
  | other (message : String)
  deriving DecidableEq, Repr

namespace Link

def message : Link → String
  | .context text => text
  | .fault kind detail => kind.message detail
  | .other message => message

/-- The kind of failure that a link is. A context is none, whatever is below it. -/
def kind? : Link → Option FaultKind
  | .fault kind _ => some kind
  | .context _ | .other _ => none

end Link

/-- The links of a cause. A failed output has a cause of its own. -/
def Cause.links : Cause → List Link
  | .fault .output detail => [.fault .output detail, .other detail]
  | .fault kind detail => [.fault kind detail]
  | .other message => [.other message]

/-- A failure and the contexts in which it was met, the innermost first. -/
structure Report where
  cause : Cause
  contexts : List String
  deriving DecidableEq, Repr

namespace Report

def ofFault (f : Fault) : Report := ⟨.fault f.kind f.detail, []⟩

def within (r : Report) (context : String) : Report :=
  { r with contexts := r.contexts ++ [context] }

/-- The links from the outermost context down. -/
def links (r : Report) : List Link := r.contexts.reverse.map .context ++ r.cause.links

def chain (r : Report) : String := ": ".intercalate (r.links.map Link.message)

/-- The process status of a report in which no failure of a known kind is found. -/
def unknownStatus : Nat := 99

/-- The process status of a report: that of the first failure of a known kind. -/
def exitCode (r : Report) : Nat :=
  ((r.links.findSome? Link.kind?).map FaultKind.exitCode).getD unknownStatus

@[simp] theorem links_within (r : Report) (context : String) :
    (r.within context).links = .context context :: r.links := by
  simp [links, within]

@[simp] theorem exitCode_within (r : Report) (context : String) :
    (r.within context).exitCode = r.exitCode := by
  rw [exitCode, links_within]
  rfl

@[simp] theorem exitCode_ofFault (f : Fault) : (ofFault f).exitCode = f.exitCode := by
  unfold ofFault Fault.exitCode
  cases f.kind <;> rfl

end Report

end Ippcode
