import Ippcode.Instruction
import Ippcode.Json
import Ippcode.Operand.Text

/-! # Instruction documents

A document names its language, if it does, and lists instructions in any order. Each record is a
JSON object or an array of its fields. Loading checks the language and then turns the records into
instructions one by one; the first one that cannot be turned is the fault.
-/
namespace Ippcode

namespace Document

structure ArgumentRecord where
  kind : String
  value : String
  deriving DecidableEq, Repr

structure InstructionRecord where
  order : Int64
  opcode : String
  args : List ArgumentRecord
  deriving DecidableEq, Repr

end Document

structure Document where
  language : Option String
  instructions : List Document.InstructionRecord
  deriving DecidableEq, Repr

namespace Document

/-- An order is a whole number as JSON writes it; a negative zero is not one. -/
def orderOfJson? : Json → Option Int64
  | .number literal => if literal = "-0" then none else Text.Decimal.parse? literal
  | _ => none

def listOfJson? {α : Type} (read : Json → Option α) (j : Json) : Option (List α) :=
  j.array?.bind fun items => items.mapM read

def required {α : Type} (read : Json → Option α) (field : Option Json) : Option α := field.bind read

def optional {α : Type} (fallback : α) (read : Json → Option α) : Option Json → Option α
  | none => some fallback
  | some j => read j

def ArgumentRecord.ofJson? (j : Json) : Option ArgumentRecord := do
  let fields ← j.record? ["type", "value"]
  let kind ← required Json.string? (fields.lookup "type")
  let value ← optional "" Json.string? (fields.lookup "value")
  return ⟨kind, value⟩

def InstructionRecord.ofJson? (j : Json) : Option InstructionRecord := do
  let fields ← j.record? ["order", "opcode", "args"]
  let order ← required orderOfJson? (fields.lookup "order")
  let opcode ← required Json.string? (fields.lookup "opcode")
  let args ← optional [] (listOfJson? ArgumentRecord.ofJson?) (fields.lookup "args")
  return ⟨order, opcode, args⟩

def languageOfJson? : Json → Option (Option String)
  | .null => some none
  | j => j.string?.map some

def ofJson? (j : Json) : Option Document := do
  let fields ← j.record? ["language", "instructions"]
  let language ← optional none languageOfJson? (fields.lookup "language")
  let instructions ← required (listOfJson? InstructionRecord.ofJson?) (fields.lookup "instructions")
  return ⟨language, instructions⟩

def ofText (text : String) : Except Fault Document :=
  match Json.parse? text with
  | none => .error (.malformedDocument "the text is not JSON")
  | some j =>
    match ofJson? j with
    | none => .error (.malformedDocument "the records do not have the expected fields")
    | some d => .ok d

def languageName : String := "IPPcode24"

/-- A document that names another language is refused. -/
def checkLanguage (d : Document) : Except Fault Unit :=
  match d.language with
  | none => .ok ()
  | some name =>
    if Text.sameLetters name languageName then .ok () else .error (.unsupportedLanguage name)

/-- The instruction of a record: its opcode is looked up first, then its arguments are read from
left to right, and last their number and kinds are checked. -/
def InstructionRecord.instruction (r : InstructionRecord) : Except Fault Instruction :=
  match Opcode.ofName? (Text.trim r.opcode) with
  | none => .error (.unknownOpcode r.opcode r.order)
  | some op => do
    let args ← r.args.mapM fun a => Argument.ofText a.kind a.value
    Instruction.make r.order op args

def load (d : Document) : Except Fault (List Instruction) := do
  d.checkLanguage
  d.instructions.mapM InstructionRecord.instruction

def loadText (text : String) : Except Fault (List Instruction) := (ofText text).bind load

end Document

end Ippcode
