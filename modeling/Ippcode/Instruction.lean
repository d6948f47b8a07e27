import Ippcode.Fault

/-! # Instruction records

An instruction as a document gives it: an order, an opcode and arguments. Its operands fit if
there are as many of them as the opcode has positions and each one may stand in its position.
-/
namespace Ippcode

structure Instruction where
  order : Int64
  opcode : Opcode
  args : List Argument
  deriving DecidableEq, Repr

namespace Instruction

/-- The first operand from position `k` on that may not stand where it stands. -/
def misfit? (op : Opcode) (order : Int64) (k : Nat) : List Slot → List Argument → Option Fault
  | slot :: slots, arg :: args =>
    if arg.fits slot then misfit? op order (k + 1) slots args
    else some (.operandKind op order k slot arg.kind)
  | _, _ => none

/-- What is wrong with the operands: their number, or else the leftmost one that does not fit. -/
def fault? (i : Instruction) : Option Fault :=
  let slots := i.opcode.slots
  if i.args.length = slots.length then misfit? i.opcode i.order 1 slots i.args
  else some (.operandCount i.opcode i.order slots.length i.args.length)

/-- An instruction whose operands fit. -/
def make (order : Int64) (opcode : Opcode) (args : List Argument) : Except Fault Instruction :=
  let i : Instruction := ⟨order, opcode, args⟩
  match i.fault? with
  | some f => .error f
  | none => .ok i

/-- Whether arguments match positions one by one. -/
def allFit : List Argument → List Slot → Bool
  | [], [] => true
  | arg :: args, slot :: slots => arg.fits slot && allFit args slots
  | _, _ => false

@[simp] theorem allFit_nil {args : List Argument} : allFit args [] ↔ args = [] := by
  cases args <;> simp [allFit]

@[simp] theorem allFit_cons {args : List Argument} {slot : Slot} {slots : List Slot} :
    allFit args (slot :: slots) ↔ ∃ a as, a.fits slot ∧ allFit as slots ∧ args = a :: as := by
  cases args <;> simp [allFit]

theorem length_eq_of_allFit {args : List Argument} {slots : List Slot} (h : allFit args slots) :
    args.length = slots.length := by
  induction slots generalizing args with
  | nil => cases args <;> simp_all [allFit]
  | cons s slots ih => cases args <;> simp_all [allFit]

theorem misfit?_eq_none_iff {op : Opcode} {order : Int64} {k : Nat} {slots : List Slot}
    {args : List Argument} (h : args.length = slots.length) :
    misfit? op order k slots args = none ↔ allFit args slots := by
  induction slots generalizing k args with
  | nil => cases args <;> simp_all [misfit?, allFit]
  | cons s slots ih =>
    cases args with
    | nil => simp at h
    | cons a args => by_cases ha : a.fits s <;> simp_all [misfit?, allFit]

/-- The operands fit exactly if they match the positions of the opcode one by one. -/
theorem fault?_eq_none_iff {i : Instruction} : i.fault? = none ↔ allFit i.args i.opcode.slots := by
  unfold fault?
  by_cases h : i.args.length = i.opcode.slots.length
  · simp [h, misfit?_eq_none_iff h]
  · simp only [h, if_false, reduceCtorEq, false_iff]
    exact fun hf => h (length_eq_of_allFit hf)

end Instruction

end Ippcode
