import Ippcode.Text.Letters

/-! # Opcodes and their signatures

The 35 opcodes of IPPcode24 in their canonical order, their names, and the kinds of operands each
one takes. A name is looked up without regard to the case of its letters.
-/
namespace Ippcode

inductive Opcode where
  | move | createFrame | pushFrame | popFrame | defVar | call | ret | pushS | popS
  | add | sub | mul | idiv | lt | gt | eq | and | or | not | int2Char | stri2Int
  | read | write | concat | strLen | getChar | setChar | type
  | label | jump | jumpIfEq | jumpIfNeq | exit | dPrint | brk
  deriving DecidableEq, Repr

/-- What an operand position accepts: a symbol is a variable or a constant. -/
inductive Slot where
  | var | symbol | label | type
  deriving DecidableEq, Repr

namespace Slot

def name : Slot → String
  | .var => "Var"
  | .symbol => "Symb"
  | .label => "Label"
  | .type => "Type"

end Slot

namespace Opcode

def all : List Opcode :=
  [.move, .createFrame, .pushFrame, .popFrame, .defVar, .call, .ret, .pushS, .popS,
   .add, .sub, .mul, .idiv, .lt, .gt, .eq, .and, .or, .not, .int2Char, .stri2Int,
   .read, .write, .concat, .strLen, .getChar, .setChar, .type,
   .label, .jump, .jumpIfEq, .jumpIfNeq, .exit, .dPrint, .brk]

def name : Opcode → String
  | .move => "MOVE"
  | .createFrame => "CREATEFRAME"
  | .pushFrame => "PUSHFRAME"
  | .popFrame => "POPFRAME"
  | .defVar => "DEFVAR"
  | .call => "CALL"
  | .ret => "RETURN"
  | .pushS => "PUSHS"
  | .popS => "POPS"
  | .add => "ADD"
  | .sub => "SUB"
  | .mul => "MUL"
  | .idiv => "IDIV"
  | .lt => "LT"
  | .gt => "GT"
  | .eq => "EQ"
  | .and => "AND"
  | .or => "OR"
  | .not => "NOT"
  | .int2Char => "INT2CHAR"
  | .stri2Int => "STRI2INT"
  | .read => "READ"
  | .write => "WRITE"
  | .concat => "CONCAT"
  | .strLen => "STRLEN"
  | .getChar => "GETCHAR"
  | .setChar => "SETCHAR"
  | .type => "TYPE"
  | .label => "LABEL"
  | .jump => "JUMP"
  | .jumpIfEq => "JUMPIFEQ"
  | .jumpIfNeq => "JUMPIFNEQ"
  | .exit => "EXIT"
  | .dPrint => "DPRINT"
  | .brk => "BREAK"

/-- The opcode of a name, up to the case of its letters. -/
def ofName? (s : String) : Option Opcode :=
  all.find? fun op => Text.sameLetters op.name s

/-- The operand positions of an opcode from left to right. -/
def slots : Opcode → List Slot
  | .createFrame | .pushFrame | .popFrame | .ret | .brk => []
  | .defVar | .popS => [.var]
  | .call | .label | .jump => [.label]
  | .pushS | .write | .exit | .dPrint => [.symbol]
  | .move | .not | .int2Char | .strLen | .type => [.var, .symbol]
  | .read => [.var, .type]
  | .jumpIfEq | .jumpIfNeq => [.label, .symbol, .symbol]
  | .add | .sub | .mul | .idiv | .lt | .gt | .eq | .and | .or | .stri2Int | .concat | .getChar
  | .setChar => [.var, .symbol, .symbol]

theorem mem_all (op : Opcode) : op ∈ all := by cases op <;> decide

end Opcode

end Ippcode
