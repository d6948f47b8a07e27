import Ippcode.Fault
import Ippcode.Text.Blank

/-! # Reading operands

An argument of a document is a pair of a kind and a text. Strings are taken as they stand, all
other texts are trimmed first.
-/
namespace Ippcode

namespace DataType

def ofText (text : String) : Except Fault DataType :=
  match ofName? text with
  | some t => .ok t
  | none => .error (.unknownType text)

end DataType

namespace VarRef

/-- Splits a text at its first at sign. -/
def splitAt? (text : String) : Option (String × String) :=
  match text.toList.span (· != '@') with
  | (tag, _ :: name) => some (String.ofList tag, String.ofList name)
  | (_, []) => none

/-- Reads a frame tag, an at sign and a name that is not empty. -/
def ofText (text : String) : Except Fault VarRef :=
  match splitAt? text with
  | none => .error (.notVariable text)
  | some (tag, name) =>
    match FrameTag.ofName? tag with
    | none => .error (.unknownFrame tag)
    | some frame => if name.isEmpty then .error (.unnamedVariable text) else .ok ⟨frame, name⟩

end VarRef

namespace Argument

def const (v : Value) : Argument := .symbol (.const v)

def var (v : VarRef) : Argument := .symbol (.var v)

def ofInt (text : String) : Except Fault Argument :=
  match Text.Decimal.parse? text with
  | some n => .ok (const (.int n))
  | none => .error (.invalidLiteral "int" text)

def ofBool : String → Except Fault Argument
  | "true" => .ok (const (.bool true))
  | "false" => .ok (const (.bool false))
  | text => .error (.invalidLiteral "bool" text)

def ofNil : String → Except Fault Argument
  | "nil" | "" => .ok (const .nil)
  | text => .error (.invalidLiteral "nil" text)

def ofLabel (text : String) : Except Fault Argument :=
  if text.isEmpty then .error .emptyLabel else .ok (.label text)

/-- The argument that a kind and a text denote. -/
def ofText (kind text : String) : Except Fault Argument :=
  match kind with
  | "int" => ofInt (Text.trim text)
  | "bool" => ofBool (Text.trim text)
  | "string" => .ok (const (.str text))
  | "nil" => ofNil (Text.trim text)
  | "var" => (VarRef.ofText (Text.trim text)).map var
  | "label" => ofLabel (Text.trim text)
  | "type" => (DataType.ofText (Text.trim text)).map .type
  | _ => .error (.unknownArgumentKind kind)

end Argument

end Ippcode
