/-! # Comparing texts

Two comparisons of texts: equality up to the case of ASCII letters, which finds opcodes, the
language name and the word `true`; and the lexicographic order by code points, which orders string
values and the names of a dump.
-/
namespace Ippcode.Text

/-- Equality up to the case of the letters `A` to `Z`; all other characters must be the same. -/
def sameLetters (a b : String) : Bool :=
  a.toList.map Char.toLower == b.toList.map Char.toLower

/-- The strict lexicographic order by code points. -/
def precedes (a b : String) : Bool :=
  a.toList.lex b.toList fun x y => decide (x.toNat < y.toNat)

theorem sameLetters_iff {a b : String} :
    sameLetters a b ↔ a.toList.map Char.toLower = b.toList.map Char.toLower := by
  simp [sameLetters]

example : sameLetters "iPPCODE24" "IPPcode24" ∧ ¬ sameLetters "é" "É" := by decide +kernel
example : precedes "a" "ab" ∧ precedes "\uffff" "😀" ∧ ¬ precedes "a" "a" := by decide +kernel

end Ippcode.Text
