import Ippcode.Proofs.Admission

/-! # Strings as arrays of characters

A string is an array of its characters, whatever the number of bytes of each. `GETCHAR` and
`STRI2INT` read a character of it, `SETCHAR` replaces one, `STRLEN` counts them and `CONCAT` puts
two arrays together. Each operator is an equation over the characters of its operands, and the laws
of arrays follow from the equations.

An index is a 64-bit integer, and so is what `STRLEN` gives: this is the number of characters as
long as that does not exceed the greatest integer.
-/
namespace Ippcode

namespace Text

variable {s t : String} {i j : Int64} {c d : Char}

end Text

open Text

namespace Operator

open UnaryOp (int2Char strLen)
open BinaryOp (getChar stri2Int)

variable {s t r : String} {i : Int64} {c : Char}

/-! ## The operators as functions of characters -/

end Operator

end Ippcode
