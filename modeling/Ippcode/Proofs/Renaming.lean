import Ippcode.Machine.Step
import Ippcode.Proofs.Result
import Mathlib.Data.List.Nodup

/-! # Other names

A renaming gives labels and variables other names, and different names to different ones. It reaches
everything that holds a name: operands, commands, frames and the faults that tell of a name. Frames
cannot tell a name from the one that stands for it: what they do under other names is what they did,
under other names.
-/
namespace Ippcode

/-- A table whose keys have other names gives under the other name what it gave. -/
theorem lookup_map_of_injective {α : Type} {g : String → String} (hg : Function.Injective g)
    (table : List (String × α)) (key : String) :
    (table.map fun e => (g e.1, e.2)).lookup (g key) = table.lookup key := by
  induction table with
  | nil => rfl
  | cons e table ih =>
    obtain ⟨other, x⟩ := e
    by_cases h : key = other
    · simp [h]
    · have hne : g key ≠ g other := fun heq => h (hg heq)
      simp only [List.map_cons, List.lookup_cons, beq_false_of_ne h, beq_false_of_ne hne, ih]

structure Renaming where
  label : String → String
  var : String → String
  label_injective : Function.Injective label
  var_injective : Function.Injective var

namespace Renaming

/-- All names stay. -/
def refl : Renaming := ⟨id, id, Function.injective_id, Function.injective_id⟩

variable (ν : Renaming)

def ref (v : VarRef) : VarRef := ⟨v.frame, ν.var v.name⟩

def symbol : Symbol → Symbol
  | .var v => .var (ν.ref v)
  | .const x => .const x

def argument : Argument → Argument
  | .symbol s => .symbol (ν.symbol s)
  | .label name => .label (ν.label name)
  | .type t => .type t

def instruction (i : Instruction) : Instruction := { i with args := i.args.map ν.argument }

def command : Command → Command
  | .move dst src => .move (ν.ref dst) (ν.symbol src)
  | .createFrame => .createFrame
  | .pushFrame => .pushFrame
  | .popFrame => .popFrame
  | .defVar dst => .defVar (ν.ref dst)
  | .call target => .call (ν.label target)
  | .ret => .ret
  | .pushS src => .pushS (ν.symbol src)
  | .popS dst => .popS (ν.ref dst)
  | .unary op dst src => .unary op (ν.ref dst) (ν.symbol src)
  | .binary op dst a b => .binary op (ν.ref dst) (ν.symbol a) (ν.symbol b)
  | .setChar dst index replacement =>
    .setChar (ν.ref dst) (ν.symbol index) (ν.symbol replacement)
  | .read dst type => .read (ν.ref dst) type
  | .write src => .write (ν.symbol src)
  | .type dst src => .type (ν.ref dst) (ν.symbol src)
  | .label name => .label (ν.label name)
  | .jump target => .jump (ν.label target)
  | .jumpIf equal target a b => .jumpIf equal (ν.label target) (ν.symbol a) (ν.symbol b)
  | .exit status => .exit (ν.symbol status)
  | .dPrint src => .dPrint (ν.symbol src)
  | .brk => .brk

def fault : Fault → Fault
  | .labelExists name => .labelExists (ν.label name)
  | .labelMissing name => .labelMissing (ν.label name)
  | .variableExists name => .variableExists (ν.var name)
  | .variableMissing name => .variableMissing (ν.var name)
  | .unassignedSource op source => .unassignedSource op (ν.symbol source)
  | .unassigned source => .unassigned (ν.symbol source)
  | f => f

def frame (f : Frame) : Frame where
  entries := f.entries.map fun e => (ν.var e.1, e.2)
  nodup := by simpa [Function.comp_def] using f.nodup.map ν.var_injective

def memory (mem : Memory) : Memory :=
  ⟨ν.frame mem.global, mem.temporary.map ν.frame, mem.locals.map ν.frame⟩

/-- What becomes of a result: the image of a value, and a fault that tells of other names. -/
def result {α β : Type} (image : α → β) : Except Fault α → Except Fault β
  | .ok a => .ok (image a)
  | .error f => .error (ν.fault f)

@[simp] theorem kind_fault (f : Fault) : (ν.fault f).kind = f.kind := by
  cases f <;> rfl

@[simp] theorem opcode_command (c : Command) : (ν.command c).opcode = c.opcode := by
  cases c with
  | jumpIf equal => cases equal <;> rfl
  | _ => rfl

@[simp] theorem args_command (c : Command) : (ν.command c).args = c.args.map ν.argument := by
  cases c <;> rfl

/-! ## Names that stay -/

@[simp] theorem symbol_refl (s : Symbol) : refl.symbol s = s := by
  cases s <;> rfl

@[simp] theorem command_refl (c : Command) : refl.command c = c := by
  cases c <;> simp [command, ref] <;> rfl

@[simp] theorem fault_refl (f : Fault) : refl.fault f = f := by
  cases f <;> simp [fault] <;> rfl

@[simp] theorem frame_refl (f : Frame) : refl.frame f = f := by
  simp [frame, refl]

@[simp] theorem result_refl {α : Type} (r : Except Fault α) : refl.result id r = r := by
  cases r with
  | ok a => rfl
  | error f => rw [result, fault_refl]

/-! ## Frames -/

variable (f : Frame) (name : String) (v : Value)

@[simp] theorem get?_frame : (ν.frame f).get? (ν.var name) = f.get? name :=
  lookup_map_of_injective ν.var_injective f.entries name

@[simp] theorem names_frame : (ν.frame f).names = f.names.map ν.var := by
  simp [frame, Frame.names, Function.comp_def]

theorem mem_names_frame : ν.var name ∈ (ν.frame f).names ↔ name ∈ f.names := by
  rw [names_frame, List.mem_map_of_injective ν.var_injective]

theorem assign_frame : (ν.frame f).assign (ν.var name) v = ν.frame (f.assign name v) := by
  simp [frame, Frame.assign, ν.var_injective.eq_iff]

theorem get_frame : (ν.frame f).get (ν.var name) = ν.result id (f.get name) := by
  simp only [Frame.get, get?_frame]
  cases f.get? name <;> rfl

theorem set_frame : (ν.frame f).set (ν.var name) v = ν.result ν.frame (f.set name v) := by
  simp only [Frame.set, mem_names_frame, assign_frame]
  split <;> rfl

theorem declare_frame : (ν.frame f).declare (ν.var name) = ν.result ν.frame (f.declare name) := by
  simp only [Frame.declare, mem_names_frame]
  split <;> rfl

end Renaming

/-! ## Operators know no names -/

/-- The fault tells of no name. -/
def Fault.Nameless (f : Fault) : Prop := ∀ ν : Renaming, ν.fault f = f

namespace Operator

variable {op : Opcode} {a b : Value} {f : Fault}

theorem nameless_of_bothAssigned (h : bothAssigned op a b = .error f) : f.Nameless := by
  unfold bothAssigned at h
  split at h <;> cases h
  exact fun _ => rfl

theorem nameless_of_quotient {x y : Int64} (h : quotient x y = .error f) : f.Nameless := by
  unfold quotient at h
  split at h <;> cases h
  exact fun _ => rfl

theorem nameless_of_arithmetic {g : Int64 → Int64 → Except Fault Int64}
    (hg : ∀ x y f, g x y = .error f → f.Nameless) (h : arithmetic op g a b = .error f) :
    f.Nameless := by
  unfold arithmetic at h
  split at h
  · exact hg _ _ _ (Except.map_eq_error.1 h)
  · cases h
    exact fun _ => rfl

theorem nameless_of_logical {g : Bool → Bool → Bool} (h : logical op g a b = .error f) :
    f.Nameless := by
  unfold logical at h
  split at h <;> cases h
  exact fun _ => rfl

theorem nameless_of_relational {test : Value → Value → Option Bool}
    (h : relational op test a b = .error f) : f.Nameless := by
  obtain h | ⟨_, _, h⟩ := Except.bind_eq_error.1 h
  · exact nameless_of_bothAssigned h
  · split at h
    · cases h
      exact fun _ => rfl
    · split at h <;> cases h
      exact fun _ => rfl

theorem nameless_of_equals (h : equals a b = .error f) : f.Nameless := by
  obtain h | ⟨_, _, h⟩ := Except.bind_eq_error.1 h
  · exact nameless_of_bothAssigned h
  · split at h <;> cases h
    exact fun _ => rfl

theorem nameless_of_jumpEquals (h : jumpEquals op a b = .error f) : f.Nameless := by
  obtain h | ⟨_, _, h⟩ := Except.bind_eq_error.1 h
  · exact nameless_of_bothAssigned h
  · split at h <;> cases h
    exact fun _ => rfl

theorem nameless_of_position {cs : List Char} {i : Int64} (h : position op cs i = .error f) :
    f.Nameless := by
  unfold position at h
  split at h <;> cases h
  exact fun _ => rfl

theorem nameless_of_charAt (h : charAt op a b = .error f) : f.Nameless := by
  unfold charAt at h
  split at h
  · exact nameless_of_position (Except.map_eq_error.1 h)
  · cases h
    exact fun _ => rfl

theorem nameless_of_concat (h : concat a b = .error f) : f.Nameless := by
  unfold concat at h
  split at h <;> cases h
  exact fun _ => rfl

theorem nameless_of_setChar {s : Value} (h : setChar s a b = .error f) : f.Nameless := by
  unfold setChar at h
  split at h
  · obtain h | ⟨_, _, h⟩ := Except.bind_eq_error.1 h
    · exact nameless_of_position h
    · split at h <;> cases h
      exact fun _ => rfl
  · cases h
    exact fun _ => rfl
  · cases h
    exact fun _ => rfl

end Operator

open Operator

theorem UnaryOp.nameless_of_apply {op : UnaryOp} {a : Value} {f : Fault}
    (h : op.apply a = .error f) : f.Nameless := by
  unfold apply at h
  split at h
  · cases h
  · unfold character at h
    split at h <;> cases h
    exact fun _ => rfl
  · cases h
  · cases h
    exact fun _ => rfl

theorem BinaryOp.nameless_of_apply {op : BinaryOp} {a b : Value} {f : Fault}
    (h : op.apply a b = .error f) : f.Nameless := by
  cases op with
  | add | sub | mul => exact nameless_of_arithmetic (fun _ _ _ hg => by cases hg) h
  | idiv => exact nameless_of_arithmetic (fun _ _ _ => nameless_of_quotient) h
  | lt => exact nameless_of_relational h
  | gt =>
    change relational .gt (fun a b => less? b a) a b = .error f at h
    exact nameless_of_relational h
  | eq => exact nameless_of_equals (Except.map_eq_error.1 h)
  | and | or => exact nameless_of_logical h
  | concat => exact nameless_of_concat h
  | stri2Int | getChar => exact nameless_of_charAt (Except.map_eq_error.1 h)

end Ippcode
