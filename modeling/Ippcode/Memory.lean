import Ippcode.Frame

/-! # Memory

The global frame always exists, the temporary frame may, and local frames form a stack of which
only the top is visible. A frame is created as the temporary one, pushed to become the visible
local one and popped to become temporary again.
-/
namespace Ippcode

structure Memory where
  global : Frame
  temporary : Option Frame
  /-- The local frames, the top one first. -/
  locals : List Frame
  deriving DecidableEq, Repr

namespace Memory

def empty : Memory := ⟨.empty, none, []⟩

def depth (m : Memory) : Nat := m.locals.length

/-- Makes an empty temporary frame in place of any other. -/
def createTemporary (m : Memory) : Memory := { m with temporary := some .empty }

/-- Moves the temporary frame onto the local ones. -/
def pushTemporary (m : Memory) : Except Fault Memory :=
  match m.temporary with
  | some f => .ok { m with temporary := none, locals := f :: m.locals }
  | none => .error .noTemporaryFrame

/-- Moves the top local frame into the place of the temporary one. -/
def popLocal (m : Memory) : Except Fault Memory :=
  match m.locals with
  | f :: rest => .ok { m with temporary := some f, locals := rest }
  | [] => .error .noLocalFrame

def frame (m : Memory) : FrameTag → Except Fault Frame
  | .gf => .ok m.global
  | .tf =>
    match m.temporary with
    | some f => .ok f
    | none => .error .noTemporaryFrame
  | .lf =>
    match m.locals with
    | f :: _ => .ok f
    | [] => .error .noLocalFrame

def update (m : Memory) (tag : FrameTag) (change : Frame → Except Fault Frame) :
    Except Fault Memory :=
  match tag with
  | .gf => (change m.global).map fun f => { m with global := f }
  | .tf =>
    match m.temporary with
    | some f => (change f).map fun f => { m with temporary := some f }
    | none => .error .noTemporaryFrame
  | .lf =>
    match m.locals with
    | f :: rest => (change f).map fun f => { m with locals := f :: rest }
    | [] => .error .noLocalFrame

def declare (m : Memory) (v : VarRef) : Except Fault Memory := m.update v.frame (·.declare v.name)

def load (m : Memory) (v : VarRef) : Except Fault Value := (m.frame v.frame).bind (·.get v.name)

def store (m : Memory) (v : VarRef) (x : Value) : Except Fault Memory :=
  m.update v.frame (·.set v.name x)

end Memory

end Ippcode
