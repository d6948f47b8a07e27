import Ippcode.Command
import Ippcode.CommandLine
import Ippcode.Device
import Ippcode.Document
import Ippcode.Fault
import Ippcode.FileTree
import Ippcode.Frame
import Ippcode.Input
import Ippcode.Instruction
import Ippcode.Json
import Ippcode.Json.Token
import Ippcode.Machine
import Ippcode.Machine.Dispatch
import Ippcode.Machine.Step
import Ippcode.Machine.Trace
import Ippcode.Main
import Ippcode.Memory
import Ippcode.Opcode
import Ippcode.Operand
import Ippcode.Operand.Text
import Ippcode.Operator
import Ippcode.Program
import Ippcode.Session
import Ippcode.Sink
import Ippcode.Stack
import Ippcode.Text.Blank
import Ippcode.Text.Decimal
import Ippcode.Text.Escape
import Ippcode.Text.Letters
import Ippcode.Value
import Ippcode.Proofs.Dispatch
import Ippcode.Proofs.Labels
import Ippcode.Proofs.Acceptance
import Ippcode.Proofs.FaultKinds
import Ippcode.Proofs.ControlFlow
import Ippcode.Proofs.Reentry
import Ippcode.Proofs.Memory
import Ippcode.Proofs.Footprint
import Ippcode.Proofs.Matching
import Ippcode.Proofs.Isolation
import Ippcode.Proofs.Initialisation
import Ippcode.Proofs.Canonical
import Ippcode.Proofs.Outputs
import Ippcode.Proofs.Renaming
import Ippcode.Proofs.Likeness
import Ippcode.Proofs.Traces
import Ippcode.Proofs.Reordering
import Ippcode.Proofs.Opacity
import Ippcode.Proofs.Locality
import Ippcode.Proofs.Inert
import Ippcode.Proofs.Termination
import Ippcode.Proofs.Rejection
import Ippcode.Proofs.Truncation
import Ippcode.Proofs.JsonText
import Ippcode.Proofs.Literals
import Ippcode.Proofs.Loading
import Ippcode.Proofs.Access
import Ippcode.Proofs.Devices
import Ippcode.Proofs.Unread
import Ippcode.Proofs.Invocation
import Ippcode.Proofs.Operations
import Ippcode.Proofs.Unassigned
import Ippcode.Proofs.Admission
import Ippcode.Proofs.Characters
import Ippcode.Proofs.ByteOrder
import Ippcode.Proofs.Branches
import Ippcode.Proofs.Arithmetic
import Ippcode.Proofs.Joins
import Ippcode.Proofs.Printable
import Ippcode.Proofs.ReadBack
import Ippcode.Proofs.FirstFault
import Ippcode.Proofs.Spelling
import Ippcode.Proofs.Edits
import Ippcode.Proofs.StoreLaws
import Ippcode.Proofs.Lifecycle
import Ippcode.Proofs.Dumps
import Ippcode.Proofs.Declarations
import Ippcode.Proofs.Integers
import Ippcode.Proofs.Displays
