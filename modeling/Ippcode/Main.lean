import Ippcode.CommandLine

/-! # The executable

Reads what the command line names, runs the session and passes its output on. Everything that is
decided is decided by `CommandLine.invoke` and `Session.run`; here are only the files and streams.
-/
namespace Ippcode.Main

open CommandLine

def lookup (path : String) : IO File := do
  match ← (IO.FS.Handle.mk path .read).toBaseIO with
  | .error e => return .absent (toString e)
  | .ok handle =>
    match ← handle.readBinToEnd.toBaseIO with
    | .ok bytes => return .contents bytes
    | .error e => return .unreadable (toString e)

def collect (o : Options) : IO (List (String × File)) :=
  (o.source.toList ++ o.input.toList).mapM fun path => return (path, ← lookup path)

/-- The standard input, if one of the two streams comes from it. -/
def standardInput (o : Options) : IO ByteArray := do
  if o.source.isSome == o.input.isSome then return .empty
  (← IO.getStdin).readBinToEnd

def complain (text : String) : IO Unit := do
  let _ ← (IO.eprint text).toBaseIO

/-- Reports a failure, if there is one, and returns the process status. -/
def conclude (r : Except Report Nat) : IO UInt32 := do
  if let .error report := r then complain (report.chain ++ "\n")
  return (Session.status r).toUInt32

def pass (stream : IO.FS.Stream) (bytes : ByteArray) : IO Unit := do
  unless bytes.isEmpty do
    stream.write bytes
    stream.flush

def flush (m : Machine) : IO Unit := do
  pass (← IO.getStdout) m.stdout.contents
  pass (← IO.getStderr) m.stderr.contents

/-- Runs a session in stretches and passes its output on after each. -/
partial def drive (s : Session) : IO UInt32 := do
  let progress := s.run 4096
  match ← (flush progress.machine).toBaseIO with
  | .error e => conclude (Session.reportIn "Executing program" (.error (.outputFailed (toString e))))
  | .ok () =>
    match Session.result? progress with
    | some r => conclude r
    | none => drive (s.rest progress.machine)

/-- The files and the standard input that a command line needs. -/
def world (args : List String) : IO ((String → File) × ByteArray) := do
  match parse args with
  | .ok (.run o) =>
    let files ← collect o
    return (fun path => (files.lookup path).getD (.absent "not looked up"), ← standardInput o)
  | _ => return (fun _ => .absent "not looked up", .empty)

end Ippcode.Main

def main (args : List String) : IO UInt32 := do
  let (files, stdin) ← Ippcode.Main.world args
  match Ippcode.CommandLine.invoke files stdin args with
  | .information text =>
    IO.print text
    return 0
  | .misuse m =>
    Ippcode.Main.complain m.message
    return Ippcode.CommandLine.misuseStatus.toUInt32
  | .failure r => Ippcode.Main.conclude (.error r)
  | .session s => Ippcode.Main.drive s
