/-! # Escapes in printed strings

Where a string is printed, a backslash and three decimal digits stand for the character of that
number. Everything else, including any other backslash, stands for itself, and a decoded character
never begins another escape.
-/
namespace Ippcode.Text.Escape

/-- The character that three characters denote when a backslash precedes them. -/
def ofDigits? (a b c : Char) : Option Char :=
  if a.isDigit && b.isDigit && c.isDigit then some (Char.ofNat (Nat.ofDigitChars 10 [a, b, c] 0))
  else none

def decodeChars : List Char → List Char
  | '\\' :: a :: b :: c :: rest =>
    match ofDigits? a b c with
    | some x => x :: decodeChars rest
    | none => '\\' :: decodeChars (a :: b :: c :: rest)
  | x :: rest => x :: decodeChars rest
  | [] => []

def decode (s : String) : String := String.ofList (decodeChars s.toList)

/-- The escape of a character below 1000. -/
def ofChar (x : Char) : List Char :=
  ['\\', Nat.digitChar (x.toNat / 100), Nat.digitChar (x.toNat / 10 % 10),
    Nat.digitChar (x.toNat % 10)]

/-- Writes the chosen characters as escapes and keeps the others. -/
def encodeChars (chosen : Char → Bool) (cs : List Char) : List Char :=
  cs.flatMap fun x => if chosen x then ofChar x else [x]

def encode (chosen : Char → Bool) (s : String) : String :=
  String.ofList (encodeChars chosen s.toList)

@[simp] theorem toList_decode (s : String) : (decode s).toList = decodeChars s.toList := by
  simp [decode]

@[simp] theorem toList_encode (chosen : Char → Bool) (s : String) :
    (encode chosen s).toList = encodeChars chosen s.toList := by
  simp [encode]

example : decode "a\\032b\\92\\\\065" = "a b\\92\\A" := by decide +kernel
example : decode (encode (· == '\\') "\\065") = "\\065" := by decide +kernel

end Ippcode.Text.Escape
