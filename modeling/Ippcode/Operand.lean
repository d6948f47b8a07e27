import Ippcode.Opcode
import Ippcode.Value

/-! # Operands

A variable reference names a frame and a variable in it. A symbol is a variable or a constant, and
an argument is a symbol, a label or a type.
-/
namespace Ippcode

/-- The global frame, the local frame on top of its stack and the temporary frame. -/
inductive FrameTag where
  | gf | lf | tf
  deriving DecidableEq, Repr

structure VarRef where
  frame : FrameTag
  name : String
  deriving DecidableEq, Repr

inductive Symbol where
  | var (v : VarRef)
  | const (v : Value)
  deriving DecidableEq, Repr

inductive Argument where
  | symbol (s : Symbol)
  | label (name : String)
  | type (t : DataType)
  deriving DecidableEq, Repr

/-- The kinds of arguments that messages distinguish. -/
inductive ArgumentKind where
  | var | label | constInt | constBool | constString | constNil | type
  deriving DecidableEq, Repr

namespace FrameTag

def name : FrameTag → String
  | .gf => "GF"
  | .lf => "LF"
  | .tf => "TF"

def ofName? : String → Option FrameTag
  | "GF" => some .gf
  | "LF" => some .lf
  | "TF" => some .tf
  | _ => none

@[simp] theorem ofName?_name (t : FrameTag) : ofName? t.name = some t := by cases t <;> rfl

end FrameTag

namespace VarRef

def text (v : VarRef) : String := v.frame.name ++ "@" ++ v.name

end VarRef

namespace ArgumentKind

def name : ArgumentKind → String
  | .var => "Variable"
  | .label => "Label"
  | .constInt => "ConstInt"
  | .constBool => "ConstBool"
  | .constString => "ConstString"
  | .constNil => "ConstNil"
  | .type => "Type"

end ArgumentKind

namespace Symbol

def kind : Symbol → ArgumentKind
  | .var _ => .var
  | .const (.int _) => .constInt
  | .const (.bool _) => .constBool
  | .const (.str _) => .constString
  | .const .nil | .const .uninit => .constNil

/-- How messages refer to a symbol: a variable by its reference, a constant by its kind. -/
def describe : Symbol → String
  | .var v => v.text
  | s => s.kind.name

end Symbol

namespace Argument

def kind : Argument → ArgumentKind
  | .symbol s => s.kind
  | .label _ => .label
  | .type _ => .type

/-- Whether an argument may stand in a position. -/
def fits : Argument → Slot → Bool
  | .symbol (.var _), .var => true
  | .symbol _, .symbol => true
  | .label _, .label => true
  | .type _, .type => true
  | _, _ => false

@[simp] theorem fits_var {a : Argument} : a.fits .var ↔ ∃ v, a = .symbol (.var v) := by
  rcases a with (_ | _) | _ | _ <;> simp [fits]

@[simp] theorem fits_symbol {a : Argument} : a.fits .symbol ↔ ∃ s, a = .symbol s := by
  rcases a with (_ | _) | _ | _ <;> simp [fits]

@[simp] theorem fits_label {a : Argument} : a.fits .label ↔ ∃ l, a = .label l := by
  rcases a with (_ | _) | _ | _ <;> simp [fits]

@[simp] theorem fits_type {a : Argument} : a.fits .type ↔ ∃ t, a = .type t := by
  rcases a with (_ | _) | _ | _ <;> simp [fits]

end Argument

end Ippcode
