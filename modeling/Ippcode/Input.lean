import Ippcode.Device
import Ippcode.Text.Blank
import Ippcode.Text.Decimal
import Ippcode.Text.Letters

/-! # Input

Input is a sequence of bytes that is read one line at a time. A line ends after a newline byte,
and a rest that is not empty is a line too. A line that is not UTF-8 is used up but has no text.
-/
namespace Ippcode

structure Input where
  bytes : List UInt8
  deriving DecidableEq, Repr

namespace Input

def newline : UInt8 := 10

/-- The first line with its newline, and what follows it. -/
def cut? (bytes : List UInt8) : Option (List UInt8 × List UInt8) :=
  match bytes.takeWhile (· != newline), bytes.dropWhile (· != newline) with
  | [], [] => none
  | line, [] => some (line, [])
  | line, b :: rest => some (line ++ [b], rest)

/-- The lines of bytes behind the beginning of a line, which is kept in reverse. -/
def linesFrom (begun : List UInt8) : List UInt8 → List (List UInt8)
  | [] => if begun.isEmpty then [] else [begun.reverse]
  | b :: rest =>
    if b = newline then (b :: begun).reverse :: linesFrom [] rest else linesFrom (b :: begun) rest

def lines (i : Input) : List (List UInt8) := linesFrom [] i.bytes

/-- Removes a final newline and, only behind one, a carriage return before it. -/
def chomp (cs : List Char) : List Char :=
  match cs.reverse with
  | '\n' :: '\r' :: rest => rest.reverse
  | '\n' :: rest => rest.reverse
  | _ => cs

def text? (line : List UInt8) : Option String :=
  (String.fromUTF8? line.toByteArray).map fun s => String.ofList (chomp s.toList)

def convert : DataType → String → Option Value
  | .int, s => (Text.Decimal.parse? (Text.trim s)).map .int
  | .bool, s => some (.bool (Text.sameLetters (Text.trim s) "true"))
  | .string, s => some (.str s)

/-- Uses up one line and reads it as a value of a type. There is no value if the input has ended or
the line does not denote one. -/
def read (t : DataType) (i : Input) : Option Value × Input :=
  match cut? i.bytes with
  | none => (none, i)
  | some (line, rest) => ((text? line).bind (convert t), ⟨rest⟩)

theorem typeName_of_convert {t : DataType} {s : String} {v : Value} (h : convert t s = some v) :
    v.typeName = t.name := by
  cases t with
  | int =>
    obtain ⟨n, _, rfl⟩ := Option.map_eq_some_iff.1 h
    rfl
  | bool | string =>
    cases h
    rfl

instance : Reader Input where
  read := read
  typeName_of_read := by
    intro t i v h
    unfold read at h
    cases hc : cut? i.bytes with
    | none => simp [hc] at h
    | some c =>
      simp only [hc] at h
      obtain ⟨s, _, hs⟩ := Option.bind_eq_some_iff.1 h
      exact typeName_of_convert hs

@[simp] theorem linesFrom_append {begun line rest : List UInt8} (h : ∀ b ∈ line, b ≠ newline) :
    linesFrom begun (line ++ rest) = linesFrom (line.reverse ++ begun) rest := by
  induction line generalizing begun with
  | nil => rfl
  | cons b line ih =>
    have hb : b ≠ newline := h b (by simp)
    simp only [List.cons_append, linesFrom, if_neg hb]
    rw [ih fun c hc => h c (by simp [hc])]
    simp

/-- Cutting off a line is taking the first of all lines. -/
theorem lines_eq (bytes : List UInt8) :
    lines ⟨bytes⟩ = match cut? bytes with
      | none => []
      | some (line, rest) => line :: lines ⟨rest⟩ := by
  have hsplit := List.takeWhile_append_dropWhile (p := (· != newline)) (l := bytes)
  have hline : ∀ b ∈ bytes.takeWhile (· != newline), b ≠ newline := fun b hb => by
    simpa using List.all_eq_true.1 List.all_takeWhile b hb
  have hrest := List.head?_dropWhile_not (· != newline) bytes
  unfold cut? lines
  generalize bytes.takeWhile (· != newline) = line at hsplit hline
  generalize bytes.dropWhile (· != newline) = rest at hsplit hrest
  subst hsplit
  rw [linesFrom_append hline]
  cases rest with
  | nil => cases line <;> simp [linesFrom]
  | cons b rest =>
    obtain rfl : b = newline := by simpa using hrest
    cases line <;> simp [linesFrom]

end Input

end Ippcode
