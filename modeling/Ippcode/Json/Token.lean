/-! # JSON tokens

The tokens of a JSON text. The lexer takes one character at a time: blanks are the four of JSON,
numbers are kept as they are written, and the characters of a string are those that its escapes
denote. A surrogate escape is only taken as one half of a pair.
-/
namespace Ippcode.Json

inductive Token where
  | openBracket | closeBracket | openBrace | closeBrace | comma | colon
  | null
  | bool (b : Bool)
  | number (literal : String)
  | string (s : String)
  deriving DecidableEq, Repr

namespace Number

/-- One or more digits, and then what `rest` accepts. -/
def digitsThen (rest : List Char → Bool) (cs : List Char) : Bool :=
  !(cs.takeWhile Char.isDigit).isEmpty && rest (cs.dropWhile Char.isDigit)

def exponent : List Char → Bool
  | [] => true
  | e :: '+' :: cs | e :: '-' :: cs => (e == 'e' || e == 'E') && digitsThen List.isEmpty cs
  | e :: cs => (e == 'e' || e == 'E') && digitsThen List.isEmpty cs

def fraction : List Char → Bool
  | '.' :: cs => digitsThen exponent cs
  | cs => exponent cs

/-- A whole part has no leading zeros. -/
def unsigned : List Char → Bool
  | '0' :: cs => fraction cs
  | cs => digitsThen fraction cs

/-- Whether characters are a number as JSON writes it. -/
def isValid : List Char → Bool
  | '-' :: cs => unsigned cs
  | cs => unsigned cs

def isPart (c : Char) : Bool := c.isDigit || "+-.eE".toList.contains c

end Number

def hexDigit? (c : Char) : Option Nat :=
  if c.isDigit then some (c.toNat - '0'.toNat)
  else if 'a'.toNat ≤ c.toNat ∧ c.toNat ≤ 'f'.toNat then some (c.toNat - 'a'.toNat + 10)
  else if 'A'.toNat ≤ c.toNat ∧ c.toNat ≤ 'F'.toNat then some (c.toNat - 'A'.toNat + 10)
  else none

/-- Where the lexer is. Characters read so far are kept in reverse. -/
inductive Lexer.Mode where
  | between
  | word (cs : List Char)
  | number (cs : List Char)
  | string (cs : List Char)
  | escape (cs : List Char)
  /-- Digits of a code unit are still to come, perhaps behind a high surrogate. -/
  | unit (cs : List Char) (high : Option Nat) (missing value : Nat)
  /-- A high surrogate needs another escape. -/
  | pair (cs : List Char) (high : Nat)
  | pairEscape (cs : List Char) (high : Nat)
  deriving DecidableEq, Repr

structure Lexer where
  mode : Lexer.Mode
  /-- The tokens read so far, in reverse. -/
  tokens : List Token
  deriving DecidableEq, Repr

namespace Lexer

def start : Lexer := ⟨.between, []⟩

def emit (l : Lexer) (t : Token) : Lexer := ⟨.between, t :: l.tokens⟩

def goto (l : Lexer) (mode : Mode) : Lexer := { l with mode }

def wordToken? : List Char → Option Token
  | ['n', 'u', 'l', 'l'] => some .null
  | ['t', 'r', 'u', 'e'] => some (.bool true)
  | ['f', 'a', 'l', 's', 'e'] => some (.bool false)
  | _ => none

def numberToken? (cs : List Char) : Option Token :=
  if Number.isValid cs then some (.number (String.ofList cs)) else none

def finish? (l : Lexer) : Option Lexer :=
  match l.mode with
  | .between => some l
  | .word cs => (wordToken? cs.reverse).map l.emit
  | .number cs => (numberToken? cs.reverse).map l.emit
  | _ => none

/-- A character that does not continue anything. -/
def begin? (l : Lexer) (c : Char) : Option Lexer :=
  match c with
  | ' ' | '\t' | '\n' | '\r' => some l
  | '[' => some (l.emit .openBracket)
  | ']' => some (l.emit .closeBracket)
  | '{' => some (l.emit .openBrace)
  | '}' => some (l.emit .closeBrace)
  | ',' => some (l.emit .comma)
  | ':' => some (l.emit .colon)
  | '"' => some (l.goto (.string []))
  | c =>
    if c.isLower then some (l.goto (.word [c]))
    else if Number.isPart c then some (l.goto (.number [c]))
    else none

def escaped? : Char → Option Char
  | '"' => some '"'
  | '\\' => some '\\'
  | '/' => some '/'
  | 'b' => some '\x08'
  | 'f' => some '\x0c'
  | 'n' => some '\n'
  | 'r' => some '\r'
  | 't' => some '\t'
  | _ => none

def isHigh (unit : Nat) : Bool := decide (0xD800 ≤ unit) && decide (unit < 0xDC00)

def isLow (unit : Nat) : Bool := decide (0xDC00 ≤ unit) && decide (unit < 0xE000)

/-- What a string is after a whole code unit. -/
def unitMode? (cs : List Char) (high : Option Nat) (unit : Nat) : Option Mode :=
  match high with
  | none =>
    if isHigh unit then some (.pair cs unit)
    else if isLow unit then none
    else some (.string (Char.ofNat unit :: cs))
  | some h =>
    if isLow unit then
      some (.string (Char.ofNat (0x10000 + (h - 0xD800) * 0x400 + (unit - 0xDC00)) :: cs))
    else none

def step (l : Lexer) (c : Char) : Option Lexer :=
  match l.mode with
  | .between => l.begin? c
  | .word cs => if c.isLower then some (l.goto (.word (c :: cs))) else l.finish?.bind (·.begin? c)
  | .number cs =>
    if Number.isPart c then some (l.goto (.number (c :: cs))) else l.finish?.bind (·.begin? c)
  | .string cs =>
    if c = '"' then some (l.emit (.string (String.ofList cs.reverse)))
    else if c = '\\' then some (l.goto (.escape cs))
    else if c.toNat < 0x20 then none
    else some (l.goto (.string (c :: cs)))
  | .escape cs =>
    if c = 'u' then some (l.goto (.unit cs none 4 0))
    else (escaped? c).map fun x => l.goto (.string (x :: cs))
  | .unit cs high missing value =>
    (hexDigit? c).bind fun d =>
      if missing ≤ 1 then (unitMode? cs high (value * 16 + d)).map l.goto
      else some (l.goto (.unit cs high (missing - 1) (value * 16 + d)))
  | .pair cs high => if c = '\\' then some (l.goto (.pairEscape cs high)) else none
  | .pairEscape cs high => if c = 'u' then some (l.goto (.unit cs (some high) 4 0)) else none

end Lexer

namespace Token

def scan? (s : String) : Option (List Token) :=
  (s.toList.foldlM Lexer.step Lexer.start).bind fun l => l.finish?.map fun l => l.tokens.reverse

def hexChar (n : Nat) : Char := Nat.digitChar (n % 16)

/-- A character as a string writes it: the quote, the backslash and control characters are
escaped. -/
def quotedChar (c : Char) : List Char :=
  if c = '"' then ['\\', '"']
  else if c = '\\' then ['\\', '\\']
  else if c.toNat < 0x20 then ['\\', 'u', '0', '0', hexChar (c.toNat / 16), hexChar c.toNat]
  else [c]

def chars : Token → List Char
  | .openBracket => ['[']
  | .closeBracket => [']']
  | .openBrace => ['{']
  | .closeBrace => ['}']
  | .comma => [',']
  | .colon => [':']
  | .null => ['n', 'u', 'l', 'l']
  | .bool true => ['t', 'r', 'u', 'e']
  | .bool false => ['f', 'a', 'l', 's', 'e']
  | .number literal => literal.toList
  | .string s => '"' :: s.toList.flatMap quotedChar ++ ['"']

end Token

end Ippcode.Json
