import Ippcode.Text.Decimal

/-! # Values

Values are scalars. A declared variable that was never assigned holds `uninit`, which is not a
value of any type and differs from `nil`. The text form of a value is its type, an at sign and its
plain text, as dumps show it.
-/
namespace Ippcode

/-- The types that an input line can be read as. -/
inductive DataType where
  | int | bool | string
  deriving DecidableEq, Repr

inductive Value where
  | int (n : Int64)
  | bool (b : Bool)
  | str (s : String)
  | nil
  | uninit
  deriving DecidableEq, Repr

namespace DataType

def name : DataType → String
  | .int => "int"
  | .bool => "bool"
  | .string => "string"

def ofName? : String → Option DataType
  | "int" => some .int
  | "bool" => some .bool
  | "string" => some .string
  | _ => none

@[simp] theorem ofName?_name (t : DataType) : ofName? t.name = some t := by cases t <;> rfl

end DataType

namespace Value

/-- The name that `TYPE` reports; an unassigned variable has none. -/
def typeName : Value → String
  | .int _ => "int"
  | .bool _ => "bool"
  | .str _ => "string"
  | .nil => "nil"
  | .uninit => ""

def isNil : Value → Bool
  | .nil => true
  | _ => false

def isUninit : Value → Bool
  | .uninit => true
  | _ => false

/-- Values are of one type if their types have the same name. -/
def sameType (a b : Value) : Bool := a.typeName == b.typeName

def text : Value → String
  | .int n => Text.Decimal.render n
  | .bool true => "true"
  | .bool false => "false"
  | .str s => s
  | .nil => "nil"
  | .uninit => ""

def display : Value → String
  | .uninit => "(uninitialized)"
  | v => v.typeName ++ "@" ++ v.text

@[simp] theorem isUninit_iff {v : Value} : v.isUninit ↔ v = .uninit := by
  cases v <;> simp [isUninit]

@[simp] theorem isNil_iff {v : Value} : v.isNil ↔ v = .nil := by
  cases v <;> simp [isNil]

@[simp] theorem sameType_iff {a b : Value} : a.sameType b ↔ a.typeName = b.typeName := by
  simp [sameType]

end Value

end Ippcode
