import Ippcode.Fault

/-! # Devices

What a machine needs around it: a reader, from which values are requested, and a writer, to which
values are handed. Either may be anything that keeps to its interface; lines of input and sinks of
bytes are one reader and one writer.
-/
namespace Ippcode

/-- A reader uses itself up as it is read. It gives no value if it has none to give. -/
class Reader (ρ : Type) where
  read : DataType → ρ → Option Value × ρ
  /-- What is read is of the type that was requested. -/
  typeName_of_read {t : DataType} {r : ρ} {v : Value} :
    (read t r).1 = some v → v.typeName = t.name

/-- A writer may fail at any time, and may have taken a part of the value when it does. -/
class Writer (σ : Type) where
  write : σ → Value → σ × Except Fault Unit
  /-- A writer fails for no other reason than that it could not write. -/
  outputFailed_of_write {w : σ} {v : Value} {f : Fault} :
    (write w v).2 = .error f → ∃ reason, f = .outputFailed reason

end Ippcode
