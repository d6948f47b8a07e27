import Ippcode.Json.Token

/-! # JSON values

Values with numbers as they are written and members in the order of the text. Reading goes through
the tokens with the containers that are still open in a list, writing gives the tokens of a value.
-/
namespace Ippcode

inductive Json where
  | null
  | bool (b : Bool)
  | number (literal : String)
  | string (s : String)
  | array (items : List Json)
  | object (members : List (String × Json))
  deriving Repr

namespace Json

/-- A container that waits for a value, with what it has so far in reverse. -/
inductive Pending where
  | item (items : List Json)
  | member (members : List (String × Json)) (key : String)
  deriving Repr

/-- What the tokens read so far lead to, below which containers. -/
inductive Reader where
  | value (stack : List Pending)
  | firstItem (stack : List Pending)
  | firstKey (stack : List Pending)
  | nextKey (members : List (String × Json)) (stack : List Pending)
  | colon (members : List (String × Json)) (key : String) (stack : List Pending)
  | afterItem (items : List Json) (stack : List Pending)
  | afterMember (members : List (String × Json)) (stack : List Pending)
  | done (j : Json)
  deriving Repr

namespace Reader

/-- Hands a whole value to the innermost container. -/
def complete (j : Json) : List Pending → Reader
  | [] => .done j
  | .item items :: stack => .afterItem (j :: items) stack
  | .member members key :: stack => .afterMember ((key, j) :: members) stack

def begin? (stack : List Pending) : Token → Option Reader
  | .openBracket => some (.firstItem stack)
  | .openBrace => some (.firstKey stack)
  | .null => some (complete .null stack)
  | .bool b => some (complete (.bool b) stack)
  | .number literal => some (complete (.number literal) stack)
  | .string s => some (complete (.string s) stack)
  | .closeBracket | .closeBrace | .comma | .colon => none

def step : Reader → Token → Option Reader
  | .value stack, t => begin? stack t
  | .firstItem stack, .closeBracket => some (complete (.array []) stack)
  | .firstItem stack, t => begin? (.item [] :: stack) t
  | .firstKey stack, .closeBrace => some (complete (.object []) stack)
  | .firstKey stack, .string key => some (.colon [] key stack)
  | .nextKey members stack, .string key => some (.colon members key stack)
  | .colon members key stack, .colon => some (.value (.member members key :: stack))
  | .afterItem items stack, .comma => some (.value (.item items :: stack))
  | .afterItem items stack, .closeBracket => some (complete (.array items.reverse) stack)
  | .afterMember members stack, .comma => some (.nextKey members stack)
  | .afterMember members stack, .closeBrace => some (complete (.object members.reverse) stack)
  | _, _ => none

def result? : Reader → Option Json
  | .done j => some j
  | _ => none

end Reader

def ofTokens? (ts : List Token) : Option Json :=
  (ts.foldlM Reader.step (.value [])).bind Reader.result?

def parse? (s : String) : Option Json := (Token.scan? s).bind ofTokens?

mutual

def tokens : Json → List Token
  | .null => [.null]
  | .bool b => [.bool b]
  | .number literal => [.number literal]
  | .string s => [.string s]
  | .array [] => [.openBracket, .closeBracket]
  | .array (j :: js) => .openBracket :: tokens j ++ moreItems js
  | .object [] => [.openBrace, .closeBrace]
  | .object ((key, j) :: ms) => .openBrace :: .string key :: .colon :: tokens j ++ moreMembers ms

def moreItems : List Json → List Token
  | [] => [.closeBracket]
  | j :: js => .comma :: tokens j ++ moreItems js

def moreMembers : List (String × Json) → List Token
  | [] => [.closeBrace]
  | (key, j) :: ms => .comma :: .string key :: .colon :: tokens j ++ moreMembers ms

end

/-- The text of a value without blanks. -/
def render (j : Json) : String := String.ofList (j.tokens.flatMap Token.chars)

def string? : Json → Option String
  | .string s => some s
  | _ => none

def array? : Json → Option (List Json)
  | .array items => some items
  | _ => none

/-- The members of a record with the given field names: an object with some of these keys, each at
most once, or an array of values for the first of them. -/
def record? (names : List String) : Json → Option (List (String × Json))
  | .array items => if items.length ≤ names.length then some (names.zip items) else none
  | .object members =>
    let keys := members.map Prod.fst
    if keys.Nodup ∧ ∀ key ∈ keys, key ∈ names then some members else none
  | _ => none

end Json

end Ippcode
