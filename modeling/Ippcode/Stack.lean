import Ippcode.Fault

/-! # Stacks

The call stack and the operand stack are lists with the top first. Taking from an empty stack is a
fault that names the stack.
-/
namespace Ippcode

abbrev Stack (α : Type) := List α

namespace Stack

def push {α : Type} (s : Stack α) (x : α) : Stack α := x :: s

/-- The top of a stack of the given name, and what is below it. -/
def pop {α : Type} (name : String) : Stack α → Except Fault (α × Stack α)
  | x :: rest => .ok (x, rest)
  | [] => .error (.emptyStack name)

end Stack

end Ippcode
