import Ippcode.Fault
import Ippcode.Text.Letters

/-! # Operators

The operators on values: integer arithmetic modulo 2^64 with truncating division, orders and
equality within a type, Boolean connectives, and strings as arrays of characters. The types of the
operands are checked before their values, and an unassigned operand is always a fault of operand
types.
-/
namespace Ippcode

inductive UnaryOp where
  | not | int2Char | strLen
  deriving DecidableEq, Repr

inductive BinaryOp where
  | add | sub | mul | idiv | lt | gt | eq | and | or | stri2Int | concat | getChar
  deriving DecidableEq, Repr

namespace UnaryOp

def opcode : UnaryOp → Opcode
  | .not => .not
  | .int2Char => .int2Char
  | .strLen => .strLen

end UnaryOp

namespace BinaryOp

def opcode : BinaryOp → Opcode
  | .add => .add
  | .sub => .sub
  | .mul => .mul
  | .idiv => .idiv
  | .lt => .lt
  | .gt => .gt
  | .eq => .eq
  | .and => .and
  | .or => .or
  | .stri2Int => .stri2Int
  | .concat => .concat
  | .getChar => .getChar

end BinaryOp

namespace Operator

/-- Division that truncates toward zero; the quotient of the least integer by -1 wraps around. -/
def quotient (x y : Int64) : Except Fault Int64 :=
  if y = 0 then .error .divisionByZero else .ok (x / y)

def arithmetic (op : Opcode) (f : Int64 → Int64 → Except Fault Int64) :
    Value → Value → Except Fault Value
  | .int x, .int y => (f x y).map .int
  | a, b => .error (.operandTypes op a b)

def logical (op : Opcode) (f : Bool → Bool → Bool) : Value → Value → Except Fault Value
  | .bool x, .bool y => .ok (.bool (f x y))
  | a, b => .error (.operandTypes op a b)

/-- The strict order within a type: integers by size, `false` before `true`, strings by their code
points. -/
def less? : Value → Value → Option Bool
  | .int x, .int y => some (decide (x < y))
  | .bool x, .bool y => some (!x && y)
  | .str x, .str y => some (Text.precedes x y)
  | _, _ => none

/-- Refuses unassigned operands, the left one first. -/
def bothAssigned (op : Opcode) (a b : Value) : Except Fault Unit :=
  if a.isUninit || b.isUninit then .error (.unassignedOperand op) else .ok ()

/-- An order test between two values of one type, neither of them nil. -/
def relational (op : Opcode) (test : Value → Value → Option Bool) (a b : Value) :
    Except Fault Value := do
  bothAssigned op a b
  if a.isNil || b.isNil then .error (.nilOrdered op)
  else match test a b with
    | some r => .ok (.bool r)
    | none => .error (.operandTypes op a b)

/-- Equality of two values of one type, where nil may be compared with anything. -/
def equals (a b : Value) : Except Fault Bool := do
  bothAssigned .eq a b
  if a.isNil || b.isNil || a.sameType b then .ok (decide (a = b))
  else .error (.operandTypes .eq a b)

/-- Equality as conditional jumps test it: the types must agree, nil included. -/
def jumpEquals (op : Opcode) (a b : Value) : Except Fault Bool := do
  bothAssigned op a b
  if a.sameType b then .ok (decide (a = b)) else .error (.operandTypes op a b)

def position (op : Opcode) (cs : List Char) (index : Int64) : Except Fault (Fin cs.length) :=
  if h : 0 ≤ index.toInt ∧ index.toInt < cs.length then .ok ⟨index.toInt.toNat, by omega⟩
  else .error (.indexRange op index cs.length)

def charAt (op : Opcode) : Value → Value → Except Fault Char
  | .str s, .int i => (position op s.toList i).map s.toList.get
  | a, b => .error (.operandTypes op a b)

def concat : Value → Value → Except Fault Value
  | .str x, .str y => .ok (.str (x ++ y))
  | a, b => .error (.operandTypes .concat a b)

/-- Replaces the character at an index by the first one of another string. -/
def setChar : Value → Value → Value → Except Fault Value
  | .str s, .int i, .str r => do
    let k ← position .setChar s.toList i
    match r.toList with
    | c :: _ => .ok (.str (String.ofList (s.toList.set k c)))
    | [] => .error .emptyReplacement
  | .str _, i, r => .error (.operandTypes .setChar i r)
  | target, _, _ => .error (.targetType target)

/-- The character of a code below 256. -/
def character (code : Int64) : Except Fault Value :=
  if 0 ≤ code.toInt ∧ code.toInt < 256 then
    .ok (.str (String.singleton (Char.ofNat code.toInt.toNat)))
  else .error (.characterCode code)

end Operator

open Operator

def UnaryOp.apply : UnaryOp → Value → Except Fault Value
  | .not, .bool b => .ok (.bool !b)
  | .int2Char, .int n => character n
  | .strLen, .str s => .ok (.int (Int64.ofNat s.length))
  | op, a => .error (.operandType op.opcode a)

def BinaryOp.apply : BinaryOp → Value → Value → Except Fault Value
  | .add => arithmetic .add fun x y => .ok (x + y)
  | .sub => arithmetic .sub fun x y => .ok (x - y)
  | .mul => arithmetic .mul fun x y => .ok (x * y)
  | .idiv => arithmetic .idiv quotient
  | .lt => relational .lt less?
  | .gt => relational .gt fun a b => less? b a
  | .eq => fun a b => (equals a b).map .bool
  | .and => logical .and (· && ·)
  | .or => logical .or (· || ·)
  | .stri2Int => fun a b => (charAt .stri2Int a b).map fun c => .int (Int64.ofNat c.toNat)
  | .concat => Operator.concat
  | .getChar => fun a b => (charAt .getChar a b).map fun c => .str (String.singleton c)

end Ippcode
