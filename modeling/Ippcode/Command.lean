import Ippcode.Instruction
import Ippcode.Operator

/-! # Commands

A command is an instruction whose operands have been matched with its signature, so that what runs
never looks at a missing or misplaced operand. Commands and instructions with fitting operands are
the same thing in two forms: `ofParts?` goes one way, `opcode` and `args` go back.
-/
namespace Ippcode

inductive Command where
  | move (dst : VarRef) (src : Symbol)
  | createFrame
  | pushFrame
  | popFrame
  | defVar (dst : VarRef)
  | call (target : String)
  | ret
  | pushS (src : Symbol)
  | popS (dst : VarRef)
  | unary (op : UnaryOp) (dst : VarRef) (src : Symbol)
  | binary (op : BinaryOp) (dst : VarRef) (a b : Symbol)
  /-- The destination is also the string that is changed. -/
  | setChar (dst : VarRef) (index replacement : Symbol)
  | read (dst : VarRef) (type : DataType)
  | write (src : Symbol)
  | type (dst : VarRef) (src : Symbol)
  | label (name : String)
  | jump (target : String)
  /-- Jumps if the operands are equal, or if they are not. -/
  | jumpIf (equal : Bool) (target : String) (a b : Symbol)
  | exit (status : Symbol)
  | dPrint (src : Symbol)
  | brk
  deriving DecidableEq, Repr

namespace Command

def opcode : Command → Opcode
  | move .. => .move
  | createFrame => .createFrame
  | pushFrame => .pushFrame
  | popFrame => .popFrame
  | defVar _ => .defVar
  | call _ => .call
  | ret => .ret
  | pushS _ => .pushS
  | popS _ => .popS
  | unary op .. => op.opcode
  | binary op .. => op.opcode
  | setChar .. => .setChar
  | read .. => .read
  | write _ => .write
  | type .. => .type
  | label _ => .label
  | jump _ => .jump
  | jumpIf true .. => .jumpIfEq
  | jumpIf false .. => .jumpIfNeq
  | exit _ => .exit
  | dPrint _ => .dPrint
  | brk => .brk

def args : Command → List Argument
  | createFrame | pushFrame | popFrame | ret | brk => []
  | defVar v | popS v => [.symbol (.var v)]
  | call l | label l | jump l => [.label l]
  | pushS a | write a | exit a | dPrint a => [.symbol a]
  | move v a | unary _ v a | type v a => [.symbol (.var v), .symbol a]
  | read v t => [.symbol (.var v), .type t]
  | binary _ v a b | setChar v a b => [.symbol (.var v), .symbol a, .symbol b]
  | jumpIf _ l a b => [.label l, .symbol a, .symbol b]

/-! The shapes that arguments can have, each with the command that is made of them. -/

def noOperands (c : Command) : List Argument → Option Command
  | [] => some c
  | _ => none

def ofVar (f : VarRef → Command) : List Argument → Option Command
  | [.symbol (.var v)] => some (f v)
  | _ => none

def ofLabel (f : String → Command) : List Argument → Option Command
  | [.label l] => some (f l)
  | _ => none

def ofSymbol (f : Symbol → Command) : List Argument → Option Command
  | [.symbol a] => some (f a)
  | _ => none

def ofVarSymbol (f : VarRef → Symbol → Command) : List Argument → Option Command
  | [.symbol (.var v), .symbol a] => some (f v a)
  | _ => none

def ofVarType (f : VarRef → DataType → Command) : List Argument → Option Command
  | [.symbol (.var v), .type t] => some (f v t)
  | _ => none

def ofVarSymbols (f : VarRef → Symbol → Symbol → Command) : List Argument → Option Command
  | [.symbol (.var v), .symbol a, .symbol b] => some (f v a b)
  | _ => none

def ofLabelSymbols (f : String → Symbol → Symbol → Command) : List Argument → Option Command
  | [.label l, .symbol a, .symbol b] => some (f l a b)
  | _ => none

/-- The command of an opcode and its arguments, if they fit. -/
def ofParts? : Opcode → List Argument → Option Command
  | .move => ofVarSymbol move
  | .createFrame => noOperands createFrame
  | .pushFrame => noOperands pushFrame
  | .popFrame => noOperands popFrame
  | .defVar => ofVar defVar
  | .call => ofLabel call
  | .ret => noOperands ret
  | .pushS => ofSymbol pushS
  | .popS => ofVar popS
  | .add => ofVarSymbols (binary .add)
  | .sub => ofVarSymbols (binary .sub)
  | .mul => ofVarSymbols (binary .mul)
  | .idiv => ofVarSymbols (binary .idiv)
  | .lt => ofVarSymbols (binary .lt)
  | .gt => ofVarSymbols (binary .gt)
  | .eq => ofVarSymbols (binary .eq)
  | .and => ofVarSymbols (binary .and)
  | .or => ofVarSymbols (binary .or)
  | .not => ofVarSymbol (unary .not)
  | .int2Char => ofVarSymbol (unary .int2Char)
  | .stri2Int => ofVarSymbols (binary .stri2Int)
  | .read => ofVarType read
  | .write => ofSymbol write
  | .concat => ofVarSymbols (binary .concat)
  | .strLen => ofVarSymbol (unary .strLen)
  | .getChar => ofVarSymbols (binary .getChar)
  | .setChar => ofVarSymbols setChar
  | .type => ofVarSymbol type
  | .label => ofLabel label
  | .jump => ofLabel jump
  | .jumpIfEq => ofLabelSymbols (jumpIf true)
  | .jumpIfNeq => ofLabelSymbols (jumpIf false)
  | .exit => ofSymbol exit
  | .dPrint => ofSymbol dPrint
  | .brk => noOperands brk

@[simp] theorem ofParts?_opcode_args (c : Command) : ofParts? c.opcode c.args = some c := by
  cases c with
  | unary op => cases op <;> rfl
  | binary op => cases op <;> rfl
  | jumpIf equal => cases equal <;> rfl
  | _ => rfl

/-- A command's parts are the parts that it was made from. -/
theorem parts_of_ofParts? {op : Opcode} {as : List Argument} {c : Command}
    (h : ofParts? op as = some c) :
    c.opcode = op ∧ c.args = as := by
  cases op <;> simp only [ofParts?, noOperands, ofVar, ofLabel, ofSymbol, ofVarSymbol, ofVarType,
    ofVarSymbols, ofLabelSymbols] at h <;> split at h <;>
    simp only [Option.some.injEq, reduceCtorEq] at h <;> subst h <;> exact ⟨rfl, rfl⟩

theorem isSome_ofParts? {op : Opcode} {as : List Argument} (h : Instruction.allFit as op.slots) :
    (ofParts? op as).isSome := by
  cases op <;> simp only [Opcode.slots, Instruction.allFit_cons, Instruction.allFit_nil,
    Argument.fits_var, Argument.fits_symbol, Argument.fits_label, Argument.fits_type] at h
  case createFrame | pushFrame | popFrame | ret | brk =>
    subst h
    rfl
  case defVar | popS | call | label | jump | pushS | write | exit | dPrint =>
    obtain ⟨_, _, ⟨_, rfl⟩, rfl, rfl⟩ := h
    rfl
  case move | not | int2Char | strLen | type | read =>
    obtain ⟨_, _, ⟨_, rfl⟩, ⟨_, _, ⟨_, rfl⟩, rfl, rfl⟩, rfl⟩ := h
    rfl
  all_goals
    obtain ⟨_, _, ⟨_, rfl⟩, ⟨_, _, ⟨_, rfl⟩, ⟨_, _, ⟨_, rfl⟩, rfl, rfl⟩, rfl⟩, rfl⟩ := h
    rfl

end Command

namespace Instruction

/-- The command of an instruction, or what is wrong with its operands. -/
def command (i : Instruction) : Except Fault Command :=
  match h : i.fault? with
  | some f => .error f
  | none =>
    have hfit := Command.isSome_ofParts? (fault?_eq_none_iff.1 h)
    .ok ((Command.ofParts? i.opcode i.args).get hfit)

end Instruction

end Ippcode
