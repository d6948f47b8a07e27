import Ippcode.Machine.Dispatch

/-! # Records and commands run alike

A record whose operands fit never crashes: carrying it out as it stands is carrying out the command
that it was matched with, fault for fault and state for state. So the signatures of the opcodes,
the test of an argument against a position and the cases of `dispatch` agree opcode by opcode.
-/
namespace Ippcode

open Stop (lift)

namespace Stop

variable {α β : Type}

theorem lift_bind (r : Except Fault α) (f : α → Except Fault β) :
    (lift r >>= fun a => lift (f a)) = lift (r >>= f) := by
  cases r <;> rfl

end Stop

namespace Operator.Family

variable (a b : Value)

theorem arithmetic_opcode {op : BinaryOp} (h : op ∈ [.add, .sub, .mul, .idiv]) :
    arithmetic op.opcode a b = lift (op.apply a b) := by
  simp only [List.mem_cons, List.not_mem_nil, or_false] at h
  rcases h with rfl | rfl | rfl | rfl <;> cases a <;> cases b <;> rfl

theorem relational_opcode {op : BinaryOp} (h : op ∈ [.lt, .gt]) :
    relational op.opcode a b = lift (op.apply a b) := by
  simp only [List.mem_cons, List.not_mem_nil, or_false] at h
  rcases h with rfl | rfl <;> cases a <;> cases b <;> rfl

theorem logical_opcode {op : BinaryOp} (h : op ∈ [.and, .or]) :
    logical op.opcode a b = lift (op.apply a b) := by
  simp only [List.mem_cons, List.not_mem_nil, or_false] at h
  rcases h with rfl | rfl <;> cases a <;> cases b <;> rfl

end Operator.Family

namespace Machine

variable {ρ σ : Type} (m : Machine ρ σ)

theorem settle_lift (r : Except Fault (Machine ρ σ)) : m.settle (lift r) = .ok (m.attempt r) := by
  cases r <;> rfl

variable [Reader ρ] [Writer σ] (p : Program)

theorem dispatch_unary (order : Int64) (op : UnaryOp) (dst : VarRef) (src : Symbol) :
    m.dispatch p ⟨order, op.opcode, [.symbol (.var dst), .symbol src]⟩ =
      .ok (m.exec p ⟨order, .unary op dst src⟩) := by
  have hs : ∀ r : Except Fault Value, m.settle (lift r >>= fun a => lift (op.apply a) >>= fun v =>
      lift (m.store dst v)) = .ok (m.attempt (r >>= fun a => op.apply a >>= m.store dst)) := by
    intro r
    simp only [Stop.lift_bind, settle_lift]
  cases op <;> exact hs _

/-- Any way of getting at the operator's result runs like the command of the operator. -/
theorem settle_sourceArgs {op : BinaryOp} {g : Value → Value → Except Stop Value}
    (hg : ∀ a b, g a b = lift (op.apply a b)) (order : Int64) (dst : VarRef)
    (left right : Symbol) :
    let i : Instruction := ⟨order, op.opcode, [.symbol (.var dst), .symbol left, .symbol right]⟩
    m.settle (m.sourceArgs i >>= fun ab => g ab.1 ab.2 >>= m.storeArg i) =
      .ok (m.exec p ⟨order, .binary op dst left right⟩) := by
  intro i
  have hi : m.sourceArgs i = lift (m.source op.opcode left >>= fun a =>
      m.source op.opcode right >>= fun b => .ok (a, b)) := by
    simp only [← Stop.lift_bind]
    rfl
  have hs : m.storeArg i = fun v => lift (m.store dst v) := rfl
  simp only [hi, hg, hs, Stop.lift_bind, settle_lift, exec, bind_assoc]
  rfl

theorem dispatch_binary (order : Int64) (op : BinaryOp) (dst : VarRef) (left right : Symbol) :
    m.dispatch p ⟨order, op.opcode, [.symbol (.var dst), .symbol left, .symbol right]⟩ =
      .ok (m.exec p ⟨order, .binary op dst left right⟩) := by
  cases op with
  | add | sub | mul | idiv =>
    exact settle_sourceArgs m p (fun a b => Operator.Family.arithmetic_opcode a b (by simp))
      order dst left right
  | lt | gt =>
    exact settle_sourceArgs m p (fun a b => Operator.Family.relational_opcode a b (by simp))
      order dst left right
  | and | or =>
    exact settle_sourceArgs m p (fun a b => Operator.Family.logical_opcode a b (by simp))
      order dst left right
  | eq | stri2Int | concat | getChar =>
    exact settle_sourceArgs m p (fun _ _ => rfl) order dst left right

theorem dispatch_jumpIf (order : Int64) (equal : Bool) (target : String) (left right : Symbol) :
    m.dispatch p (Line.instruction ⟨order, .jumpIf equal target left right⟩) =
      .ok (m.exec p ⟨order, .jumpIf equal target left right⟩) := by
  have ht : ∀ op, (lift (p.label target) >>= fun k => lift (m.value left) >>= fun a =>
      lift (m.value right) >>= fun b => lift (Operator.jumpEquals op a b) >>= fun r =>
      lift (pure (k, r))) = lift (m.jumpTest p op target left right) := by
    intro op
    simp only [Stop.lift_bind]
    rfl
  have hd : m.dispatch p (Line.instruction ⟨order, .jumpIf equal target left right⟩) =
      m.proceed (lift (m.jumpTest p (Command.jumpIf equal target left right).opcode
        target left right)) fun kr => .ok (if kr.2 = equal then .jump kr.1 m else .next m) := by
    rw [← ht]
    cases equal <;> rfl
  rw [hd]
  simp only [exec]
  cases m.jumpTest p _ target left right <;> rfl

/-- Carrying out the record of a line as it stands is carrying out its command. -/
theorem dispatch_instruction (line : Line) :
    m.dispatch p line.instruction = .ok (m.exec p line) := by
  obtain ⟨order, c⟩ := line
  cases c with
  | unary op dst src => exact dispatch_unary m p order op dst src
  | binary op dst left right => exact dispatch_binary m p order op dst left right
  | jumpIf equal target left right => exact dispatch_jumpIf m p order equal target left right
  | createFrame | label | brk => rfl
  | pushFrame | popFrame | defVar | read => exact settle_lift _ _
  | move dst src =>
    change m.settle (lift (m.copied src) >>= fun v => lift (m.store dst v)) = _
    rw [Stop.lift_bind, settle_lift]
    rfl
  | type dst src =>
    change m.settle (lift (m.value src) >>= fun v => lift (m.store dst (.str v.typeName))) = _
    rw [Stop.lift_bind, settle_lift]
    rfl
  | setChar dst index replacement =>
    change m.settle (lift (m.source .setChar (.var dst)) >>= fun s =>
      (lift (m.source .setChar index) >>= fun i =>
        lift (m.source .setChar replacement) >>= fun r => lift (.ok (i, r))) >>= fun ir =>
      lift (Operator.setChar s ir.1 ir.2) >>= fun v => lift (m.store dst v)) = _
    simp only [Stop.lift_bind, settle_lift, exec, bind_assoc]
    rfl
  | call target | jump target =>
    change m.proceed (lift (p.label target)) _ = _
    simp only [exec]
    cases p.label target <;> rfl
  | ret =>
    change m.proceed (lift (m.calls.pop "call stack")) _ = _
    simp only [exec]
    cases m.calls.pop "call stack" <;> rfl
  | pushS src =>
    change m.settle (lift (m.copied src) >>= fun v => lift (.ok _)) = _
    simp only [exec]
    cases m.copied src <;> rfl
  | popS dst =>
    change m.proceed (lift (m.operands.pop "operand stack")) _ = _
    simp only [exec]
    cases m.operands.pop "operand stack" with
    | ok r => exact settle_lift _ _
    | error f => rfl
  | write src | dPrint src =>
    change m.proceed (lift (m.copied src)) _ = _
    simp only [exec, print]
    cases m.copied src <;> rfl
  | exit status =>
    change m.proceed (lift (m.status status)) _ = _
    simp only [exec]
    cases m.status status <;> rfl

-- A record that does not fit would crash.
example (m : Machine) : m.dispatch p ⟨1, .move, []⟩ = .error (.argumentMissing 1 0) := rfl

theorem dispatchStep_eq : m.dispatchStep p = .ok (m.step p) := by
  unfold dispatchStep step Program.instruction?
  cases p.line? m.pc with
  | none => rfl
  | some line =>
    simp only [Option.map_some, dispatch_instruction]
    rfl

theorem dispatchRun_eq (n : Nat) : m.dispatchRun p n = .ok (m.run p n) := by
  induction n generalizing m with
  | zero => rfl
  | succ n ih =>
    simp only [dispatchRun, dispatchStep_eq, run]
    cases m.step p with
    | running m' => exact ih m'
    | ended | failed => rfl

end Machine

end Ippcode
