import Ippcode.Device

/-! # Sinks

A sink collects output bytes, at most as many as its limit. A write that does not fit stores the
bytes that do and fails.
-/
namespace Ippcode

structure Sink where
  contents : ByteArray
  limit : Option Nat

namespace Sink

def empty (limit : Option Nat) : Sink := ⟨.empty, limit⟩

/-- Whether so many more bytes can be stored. -/
def hasRoom (s : Sink) (n : Nat) : Bool :=
  match s.limit with
  | none => true
  | some limit => decide (n ≤ limit - s.contents.size)

/-- Stores as many of the bytes as fit. -/
def put (s : Sink) (bytes : ByteArray) : Sink :=
  match s.limit with
  | none => { s with contents := s.contents ++ bytes }
  | some limit => { s with contents := s.contents ++ bytes.extract 0 (limit - s.contents.size) }

/-- Writes a text, which fails if not all of it fits. -/
def write (s : Sink) (text : String) : Sink × Except Fault Unit :=
  (s.put text.toUTF8,
    if s.hasRoom text.utf8ByteSize then .ok () else .error (.outputFailed "sink full"))

instance : Writer Sink where
  write s v := s.write v.text
  outputFailed_of_write := by
    intro s v f h
    simp only [write] at h
    split at h
    · cases h
    · cases h
      exact ⟨_, rfl⟩

end Sink

end Ippcode
