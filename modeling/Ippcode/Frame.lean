import Ippcode.Fault
import Ippcode.Text.Letters

/-! # Frames

A frame holds declared variables and their values, each name once. A variable must be declared
before it is read or assigned and cannot be declared twice; listings are ordered by name.
-/
namespace Ippcode

structure Frame where
  entries : List (String × Value)
  nodup : (entries.map Prod.fst).Nodup
  deriving DecidableEq, Repr

namespace Frame

def empty : Frame := ⟨[], by simp⟩

def names (f : Frame) : List String := f.entries.map Prod.fst

def get? (f : Frame) (name : String) : Option Value := f.entries.lookup name

/-- Adds an unassigned variable. -/
def declare (f : Frame) (name : String) : Except Fault Frame :=
  if h : name ∈ f.names then .error (.variableExists name)
  else .ok ⟨(name, .uninit) :: f.entries, List.nodup_cons.2 ⟨h, f.nodup⟩⟩

def get (f : Frame) (name : String) : Except Fault Value :=
  match f.get? name with
  | some v => .ok v
  | none => .error (.variableMissing name)

/-- The frame in which a name, if it is declared, has a new value. -/
def assign (f : Frame) (name : String) (v : Value) : Frame where
  entries := f.entries.map fun e => (e.1, if e.1 = name then v else e.2)
  nodup := by simpa [Function.comp_def] using f.nodup

def set (f : Frame) (name : String) (v : Value) : Except Fault Frame :=
  if name ∈ f.names then .ok (f.assign name v) else .error (.variableMissing name)

def sorted (f : Frame) : List (String × Value) :=
  f.entries.mergeSort fun a b => !Text.precedes b.1 a.1

theorem get?_eq_none_iff {f : Frame} {name : String} : f.get? name = none ↔ name ∉ f.names := by
  simp only [get?, names, List.lookup_eq_none_iff, bne_iff_ne, List.mem_map, not_exists, not_and]
  exact ⟨fun h e he heq => h e he heq.symm, fun h e he heq => h e he heq.symm⟩

@[simp] theorem names_assign (f : Frame) (name : String) (v : Value) :
    (f.assign name v).names = f.names := by
  simp [names, assign]

/-- An assignment changes the value of its variable only. -/
@[simp] theorem get?_assign (f : Frame) (name : String) (v : Value) (other : String) :
    (f.assign name v).get? other =
      (f.get? other).map fun old => if other = name then v else old := by
  obtain ⟨entries, h⟩ := f
  simp only [get?, assign]
  clear h
  induction entries with
  | nil => rfl
  | cons e entries ih =>
    obtain ⟨n, x⟩ := e
    by_cases h : other = n
    · subst h
      simp
    · simpa [List.lookup_cons, beq_false_of_ne h] using ih

/-- A new variable is unassigned, and the others are as they were. -/
theorem get?_of_declare {f g : Frame} {name : String} (h : f.declare name = .ok g)
    (other : String) :
    g.get? other = if other = name then some .uninit else f.get? other := by
  unfold declare at h
  split at h
  · cases h
  · cases h
    by_cases ho : other = name
    · simp [get?, ho]
    · simp [get?, List.lookup_cons, beq_false_of_ne ho, ho]

end Frame

end Ippcode
