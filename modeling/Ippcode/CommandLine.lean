import Ippcode.Session

/-! # The command line

Two options take a path, behind an equals sign or as the next argument, and two flags ask for
information. An option that waits for its value is settled when the next option or flag comes, or
at the end; an argument that is not known at all is refused before that.
-/
namespace Ippcode

namespace CommandLine

inductive Misuse where
  | unknownArgument | invalidValue | argumentConflict | tooManyValues
  deriving DecidableEq, Repr

inductive Request where
  | run (o : Options)
  | help
  | version
  deriving DecidableEq, Repr

inductive PathOption where
  | source | input
  deriving DecidableEq, Repr

/-- What an argument that begins with hyphens stands for. -/
inductive Word where
  | path (name : PathOption) (value : Option String)
  | flag (request : Request) (value : Option String)
  | unknown
  deriving DecidableEq, Repr

/-- The options settled so far, and the one that is not, with its value if it has come. -/
structure Scan where
  options : Options
  pending : Option (PathOption × Option String)
  deriving DecidableEq, Repr

def PathOption.get? (o : Options) : PathOption → Option String
  | .source => o.source
  | .input => o.input

def PathOption.set (o : Options) (path : String) : PathOption → Options
  | .source => { o with source := some path }
  | .input => { o with input := some path }

/-- Gives an option its path: an option is given once, and a path is not empty. -/
def assign (o : Options) (name : PathOption) (path : String) : Except Misuse Options :=
  if (name.get? o).isSome then .error .argumentConflict
  else if path.isEmpty then .error .invalidValue
  else .ok (name.set o path)

namespace Scan

/-- Settles the option that is pending; it must have a value by now. -/
def settle (s : Scan) : Except Misuse Options :=
  match s.pending with
  | none => .ok s.options
  | some (_, none) => .error .invalidValue
  | some (name, some path) => assign s.options name path

end Scan

/-- Splits an argument behind its hyphens into a name and what follows the first equals sign. -/
def splitValue (cs : List Char) : String × Option String :=
  match cs.span (· != '=') with
  | (name, _ :: value) => (String.ofList name, some (String.ofList value))
  | (name, []) => (String.ofList name, none)

def longWord (cs : List Char) : Word :=
  match splitValue cs with
  | ("source", value) => .path .source value
  | ("input", value) => .path .input value
  | ("help", value) => .flag .help value
  | ("version", value) => .flag .version value
  | _ => .unknown

/-- Letters behind one hyphen are flags of which the first takes effect. -/
def shortWord : Char → Word
  | 'h' => .flag .help none
  | 'V' => .flag .version none
  | _ => .unknown

/-- The option or flag that an argument is, if it is one. A single hyphen is not. -/
def word? (arg : String) : Option Word :=
  match arg.toList with
  | '-' :: '-' :: cs => some (longWord cs)
  | '-' :: c :: _ => some (shortWord c)
  | _ => none

def scan (s : Scan) : List String → Except Misuse Request
  | [] => s.settle.map .run
  | "--" :: rest => if rest.isEmpty then s.settle.map .run else .error .unknownArgument
  | arg :: rest =>
    match word? arg, s.pending with
    | some (.path name none), _ => do scan ⟨← s.settle, some (name, none)⟩ rest
    | some (.path name (some path)), _ => do scan ⟨← assign (← s.settle) name path, none⟩ rest
    | some (.flag request none), _ => do
      let _ ← s.settle
      return request
    | some (.flag _ (some _)), _ => .error .tooManyValues
    | some .unknown, _ => .error .unknownArgument
    | none, some (name, none) => scan { s with pending := some (name, some arg) } rest
    | none, _ => .error .unknownArgument

def parse (args : List String) : Except Misuse Request := scan ⟨.empty, none⟩ args

def versionText : String := "ippcode-vm 0.1.0\n"

def helpText : String :=
  "Usage: ippcode-vm [OPTIONS]\n\n" ++
  "Options:\n" ++
  "      --source <SOURCE>  Instruction document (.json); read from stdin when omitted\n" ++
  "      --input <INPUT>    Input for READ; read from stdin when omitted\n" ++
  "  -h, --help             Print help\n" ++
  "  -V, --version          Print version\n"

def Misuse.message : Misuse → String
  | .unknownArgument => "error: unexpected argument found\n"
  | .invalidValue => "error: a value is required for an option but none was supplied\n"
  | .argumentConflict => "error: an option cannot be used multiple times\n"
  | .tooManyValues => "error: unexpected value for a flag\n"

/-- What a command line leads to: a text with a status, a failure, or a session. -/
inductive Invocation where
  | information (text : String)
  | misuse (m : Misuse)
  | failure (r : Report)
  | session (s : Session)

def misuseStatus : Nat := 2

def invoke (files : String → File) (stdin : ByteArray) (args : List String) : Invocation :=
  match parse args with
  | .error m => .misuse m
  | .ok .help => .information helpText
  | .ok .version => .information versionText
  | .ok (.run o) =>
    match Session.prepare files stdin o with
    | .error r => .failure r
    | .ok s => .session s

end CommandLine

end Ippcode
