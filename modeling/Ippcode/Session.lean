import Ippcode.Document
import Ippcode.FileTree
import Ippcode.Machine.Step

/-! # Sessions

Executing a document from its text, and the same with the files that a command line names: where
the document and the input come from, and which failure is met first.
-/
namespace Ippcode

def Program.ofText (text : String) : Except Fault Program :=
  (Document.loadText text).bind Program.ofInstructions

/-- Executes a document for at most so many steps, starting in the given state. -/
def execute {ρ σ : Type} [Reader ρ] [Writer σ] (text : String) (fuel : Nat) (m : Machine ρ σ) :
    Progress ρ σ :=
  match Program.ofText text with
  | .error f => .failed f m
  | .ok p => m.run p fuel

structure Options where
  source : Option String
  input : Option String
  deriving DecidableEq, Repr

namespace Options

def empty : Options := ⟨none, none⟩

/-- Only one of the two streams can come from the standard input. -/
def check (o : Options) : Except Fault Unit :=
  if o.source.isNone && o.input.isNone then .error .noFileNamed else .ok ()

end Options

structure Session where
  program : Program
  machine : Machine

namespace Session

variable (files : String → File) (stdin : ByteArray)

def decode (what : String) (bytes : ByteArray) : Except Fault String :=
  match String.fromUTF8? bytes with
  | some text => .ok text
  | none => .error (.unreadable what "stream did not contain valid UTF-8")

/-- The text of the document, which comes from the standard input if no file is named. -/
def sourceText (path : Option String) : Except Fault String :=
  match path with
  | none => decode "stdin" stdin
  | some path =>
    match files path with
    | .contents bytes => decode path bytes
    | .unreadable reason | .absent reason => .error (.unreadable path reason)

/-- The input, which comes from the standard input if no file is named. A file that can be opened
but not read has no lines. -/
def inputOf (path : Option String) : Except Fault Input :=
  match path with
  | none => .ok ⟨stdin.toList⟩
  | some path =>
    match files path with
    | .contents bytes => .ok ⟨bytes.toList⟩
    | .unreadable _ => .ok ⟨[]⟩
    | .absent reason => .error (.unreadable path reason)

def reportIn (context : String) {α : Type} : Except Fault α → Except Report α :=
  Except.mapError fun f => (Report.ofFault f).within context

def prepare (o : Options) : Except Report Session := do
  o.check.mapError .ofFault
  let text ← (sourceText files stdin o.source).mapError .ofFault
  let instructions ← reportIn "Parsing instruction document" (Document.loadText text)
  let input ← (inputOf files stdin o.input).mapError .ofFault
  let program ← reportIn "Executing program" (Program.ofInstructions instructions)
  return ⟨program, .start input (.empty .none) (.empty .none)⟩

def run (s : Session) (fuel : Nat) : Progress := s.machine.run s.program fuel

/-- How a run that is over was left: with a status, or with a failure to report. -/
def result? : Progress → Option (Except Report Nat)
  | .running _ => .none
  | .ended status _ => some (.ok status)
  | .failed f _ => some (reportIn "Executing program" (.error f))

/-- The process status of what a run was left with. -/
def status : Except Report Nat → Nat
  | .ok status => status
  | .error r => r.exitCode

/-- The session that is left in a state whose output has been passed on. -/
def rest (s : Session) (m : Machine) : Session := { s with machine := m.drained }

end Session

end Ippcode
