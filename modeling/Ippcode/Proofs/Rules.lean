import Ippcode.Machine.Step
import Ippcode.Proofs.Result

/-! # The rules of execution

One rule for each way in which carrying out a command can end, with the state that it leaves.
`exec` follows the rules and the rules determine it, so that whatever is to be shown of every line
is shown rule by rule.
-/
namespace Ippcode

namespace Machine

variable {ρ σ : Type}

/-- The destination of a command that only computes a value, and the value. -/
def computed (m : Machine ρ σ) : Command → Option (VarRef × Except Fault Value)
  | .move dst src => some (dst, m.copied src)
  | .unary op dst src => some (dst, m.source op.opcode src >>= op.apply)
  | .binary op dst left right => some (dst, do
    let a ← m.source op.opcode left
    let b ← m.source op.opcode right
    op.apply a b)
  | .setChar dst index replacement => some (dst, do
    let s ← m.source .setChar (.var dst)
    let i ← m.source .setChar index
    let r ← m.source .setChar replacement
    Operator.setChar s i r)
  | .type dst src => some (dst, do return .str (← m.value src).typeName)
  | _ => none

def effects : List Opcode :=
  [.createFrame, .pushFrame, .popFrame, .defVar, .call, .ret, .pushS, .popS, .read, .write, .label,
    .jump, .jumpIfEq, .jumpIfNeq, .exit, .dPrint, .brk]

theorem not_mem_of_computed {m : Machine ρ σ} {c : Command} {dst : VarRef} {r : Except Fault Value}
    (h : m.computed c = some (dst, r)) {ops : List Opcode} (hops : ops ⊆ effects) :
    c.opcode ∉ ops := by
  have hc : c.opcode ∉ effects := by
    cases c with
    | move | type | setChar => simp [Command.opcode, effects]
    | unary op => cases op <;> simp [Command.opcode, UnaryOp.opcode, effects]
    | binary op => cases op <;> simp [Command.opcode, BinaryOp.opcode, effects]
    | _ => cases h
  intro hop
  exact hc (hops hop)

def nextRead [Reader ρ] (m : Machine ρ σ) (type : DataType) : Value :=
  (Reader.read type m.input).1.getD .nil

def restInput [Reader ρ] (m : Machine ρ σ) (type : DataType) : ρ := (Reader.read type m.input).2

/-- The input after a command: `READ` requests one value of the reader, and nothing else does. -/
def inputAfter [Reader ρ] (m : Machine ρ σ) : Command → ρ
  | .read _ type => m.restInput type
  | _ => m.input

theorem inputAfter_of_computed [Reader ρ] {m : Machine ρ σ} {c : Command} {dst : VarRef}
    {r : Except Fault Value} (h : m.computed c = some (dst, r)) : m.inputAfter c = m.input := by
  cases c <;> first | rfl | cases h

/-- What follows from a call that left a channel with this sink and gave this result. -/
def written (m : Machine ρ σ) (c : Channel) (s : σ) : Except Fault Unit → Outcome ρ σ
  | .ok _ => .next (m.withSink s c)
  | .error f => .fault f (m.withSink s c)

variable [Writer σ]

/-- Printing a value leaves a sink as it is or makes one call, with this sink and this result. -/
inductive Prints (s : σ) (v : Value) : σ → Except Fault Unit → Prop
  | silent (h : v.printed? = none) : Prints s v s (.ok ())
  | call {x : Value} {s' : σ} {r : Except Fault Unit} (h : v.printed? = some x)
    (hw : Writer.write s x = (s', r)) : Prints s v s' r

variable [Reader ρ]

/-- How carrying out the command of a line of the given order can end. -/
inductive Rule (p : Program) (order : Int64) (m : Machine ρ σ) : Command → Outcome ρ σ → Prop
  | assign {c : Command} {dst : VarRef} {v : Value} {memory : Memory}
    (hc : m.computed c = some (dst, .ok v)) (hs : m.memory.store dst v = .ok memory) :
    Rule p order m c (.next { m with memory })
  | notComputed {c : Command} {dst : VarRef} {f : Fault}
    (hc : m.computed c = some (dst, .error f)) : Rule p order m c (.fault f m)
  | notAssigned {c : Command} {dst : VarRef} {v : Value} {f : Fault}
    (hc : m.computed c = some (dst, .ok v)) (hs : m.memory.store dst v = .error f) :
    Rule p order m c (.fault f m)
  | createFrame : Rule p order m .createFrame (.next { m with memory := m.memory.createTemporary })
  | pushFrame {memory : Memory} (h : m.memory.pushTemporary = .ok memory) :
    Rule p order m .pushFrame (.next { m with memory })
  | notPushed {f : Fault} (h : m.memory.pushTemporary = .error f) :
    Rule p order m .pushFrame (.fault f m)
  | popFrame {memory : Memory} (h : m.memory.popLocal = .ok memory) :
    Rule p order m .popFrame (.next { m with memory })
  | notPopped {f : Fault} (h : m.memory.popLocal = .error f) : Rule p order m .popFrame (.fault f m)
  | defVar {dst : VarRef} {memory : Memory} (h : m.memory.declare dst = .ok memory) :
    Rule p order m (.defVar dst) (.next { m with memory })
  | notDeclared {dst : VarRef} {f : Fault} (h : m.memory.declare dst = .error f) :
    Rule p order m (.defVar dst) (.fault f m)
  | call {target : String} {k : Nat} (h : p.label target = .ok k) :
    Rule p order m (.call target) (.jump k { m with calls := (m.pc + 1) :: m.calls })
  | notCalled {target : String} {f : Fault} (h : p.label target = .error f) :
    Rule p order m (.call target) (.fault f m)
  | ret {k : Nat} {calls : Stack Nat} (h : m.calls = k :: calls) :
    Rule p order m .ret (.jump k { m with calls })
  | notCalledFrom (h : m.calls = []) : Rule p order m .ret (.fault (.emptyStack "call stack") m)
  | pushS {src : Symbol} {v : Value} (h : m.copied src = .ok v) :
    Rule p order m (.pushS src) (.next { m with operands := v :: m.operands })
  | nothingToPush {src : Symbol} {f : Fault} (h : m.copied src = .error f) :
    Rule p order m (.pushS src) (.fault f m)
  | popS {dst : VarRef} {v : Value} {operands : Stack Value} {memory : Memory}
    (h : m.operands = v :: operands) (hs : m.memory.store dst v = .ok memory) :
    Rule p order m (.popS dst) (.next { m with memory, operands })
  | nothingToPop {dst : VarRef} (h : m.operands = []) :
    Rule p order m (.popS dst) (.fault (.emptyStack "operand stack") m)
  | popLost {dst : VarRef} {v : Value} {operands : Stack Value} {f : Fault}
    (h : m.operands = v :: operands) (hs : m.memory.store dst v = .error f) :
    Rule p order m (.popS dst) (.fault f { m with operands })
  | read {dst : VarRef} {type : DataType} {memory : Memory}
    (hs : m.memory.store dst (m.nextRead type) = .ok memory) :
    Rule p order m (.read dst type) (.next { m with memory, input := m.restInput type })
  | readLost {dst : VarRef} {type : DataType} {f : Fault}
    (hs : m.memory.store dst (m.nextRead type) = .error f) :
    Rule p order m (.read dst type) (.fault f { m with input := m.restInput type })
  | write {src : Symbol} {v : Value} {s : σ} (h : m.copied src = .ok v)
    (hp : Prints m.stdout v s (.ok ())) : Rule p order m (.write src) (.next { m with stdout := s })
  | nothingToWrite {src : Symbol} {f : Fault} (h : m.copied src = .error f) :
    Rule p order m (.write src) (.fault f m)
  | notWritten {src : Symbol} {v : Value} {s : σ} {f : Fault} (h : m.copied src = .ok v)
    (hp : Prints m.stdout v s (.error f)) :
    Rule p order m (.write src) (.fault f { m with stdout := s })
  | label {name : String} : Rule p order m (.label name) (.next m)
  | jump {target : String} {k : Nat} (h : p.label target = .ok k) :
    Rule p order m (.jump target) (.jump k m)
  | notJumped {target : String} {f : Fault} (h : p.label target = .error f) :
    Rule p order m (.jump target) (.fault f m)
  | jumpIf {equal : Bool} {target : String} {a b : Symbol} {k : Nat}
    (h : m.jumpTest p (Command.jumpIf equal target a b).opcode target a b = .ok (k, equal)) :
    Rule p order m (.jumpIf equal target a b) (.jump k m)
  | stay {equal : Bool} {target : String} {a b : Symbol} {k : Nat}
    (h : m.jumpTest p (Command.jumpIf equal target a b).opcode target a b = .ok (k, !equal)) :
    Rule p order m (.jumpIf equal target a b) (.next m)
  | notTested {equal : Bool} {target : String} {a b : Symbol} {f : Fault}
    (h : m.jumpTest p (Command.jumpIf equal target a b).opcode target a b = .error f) :
    Rule p order m (.jumpIf equal target a b) (.fault f m)
  | exit {s : Symbol} {n : Nat} (h : m.status s = .ok n) : Rule p order m (.exit s) (.exit n m)
  | noStatus {s : Symbol} {f : Fault} (h : m.status s = .error f) :
    Rule p order m (.exit s) (.fault f m)
  | dPrint {src : Symbol} {v : Value} {s : σ} (h : m.copied src = .ok v)
    (hp : Prints m.stderr v s (.ok ())) :
    Rule p order m (.dPrint src) (.next { m with stderr := s })
  | nothingToPrint {src : Symbol} {f : Fault} (h : m.copied src = .error f) :
    Rule p order m (.dPrint src) (.fault f m)
  | notPrinted {src : Symbol} {v : Value} {s : σ} {f : Fault} (h : m.copied src = .ok v)
    (hp : Prints m.stderr v s (.error f)) :
    Rule p order m (.dPrint src) (.fault f { m with stderr := s })
  | brk {s : σ} (h : Writer.write m.stderr (.str (m.dump order)) = (s, .ok ())) :
    Rule p order m .brk (.next { m with stderr := s })
  | notDumped {s : σ} {f : Fault} (h : Writer.write m.stderr (.str (m.dump order)) = (s, .error f)) :
    Rule p order m .brk (.fault f { m with stderr := s })

variable {p : Program} {line : Line} {m m' : Machine ρ σ} {o : Outcome ρ σ}

theorem exec_of_computed {dst : VarRef} {r : Except Fault Value}
    (h : m.computed line.command = some (dst, r)) :
    m.exec p line = m.attempt (r >>= m.store dst) := by
  obtain ⟨order, c⟩ := line
  cases c <;> simp only [computed, Option.some.injEq, Prod.mk.injEq, reduceCtorEq] at h
  all_goals
    obtain ⟨rfl, rfl⟩ := h
    simp only [exec, bind_assoc, pure_bind]

theorem rule_of_computed {dst : VarRef} {r : Except Fault Value}
    (h : m.computed line.command = some (dst, r)) :
    Rule p line.order m line.command (m.exec p line) := by
  rw [exec_of_computed h]
  cases r with
  | error f => exact .notComputed h
  | ok v =>
    change Rule p line.order m line.command (m.attempt (m.store dst v))
    unfold store
    cases hs : m.memory.store dst v with
    | error f => exact .notAssigned h hs
    | ok memory => exact .assign h hs

omit [Reader ρ] in
theorem put_of_prints {c : Channel} {v : Value} {s : σ} {r : Except Fault Unit}
    (h : Prints (m.sink c) v s r) : m.put c v = m.written c s r := by
  unfold put
  cases h with
  | silent h =>
    rw [h]
    cases c <;> rfl
  | call h hw =>
    simp only [h, emit, hw]
    cases r <;> rfl

omit [Reader ρ] in
theorem exists_prints (s : σ) (v : Value) : ∃ s' r, Prints s v s' r := by
  cases hx : v.printed? with
  | none => exact ⟨s, .ok (), .silent hx⟩
  | some x => exact ⟨_, _, .call hx rfl⟩

/-- Every line is carried out by one of the rules. -/
theorem rule_exec : Rule p line.order m line.command (m.exec p line) := by
  obtain ⟨order, c⟩ := line
  cases c with
  | move | unary | binary | setChar | type => exact rule_of_computed rfl
  | createFrame => exact .createFrame
  | label => exact .label
  | pushFrame =>
    simp only [exec]
    cases h : m.memory.pushTemporary with
    | ok memory => exact .pushFrame h
    | error f => exact .notPushed h
  | popFrame =>
    simp only [exec]
    cases h : m.memory.popLocal with
    | ok memory => exact .popFrame h
    | error f => exact .notPopped h
  | defVar dst =>
    simp only [exec]
    cases h : m.memory.declare dst with
    | ok memory => exact .defVar h
    | error f => exact .notDeclared h
  | call target =>
    simp only [exec]
    cases h : p.label target with
    | ok k => exact .call h
    | error f => exact .notCalled h
  | jump target =>
    simp only [exec]
    cases h : p.label target with
    | ok k => exact .jump h
    | error f => exact .notJumped h
  | ret =>
    simp only [exec]
    cases h : m.calls with
    | nil => exact .notCalledFrom h
    | cons k calls => exact .ret h
  | pushS src =>
    simp only [exec]
    cases h : m.copied src with
    | ok v => exact .pushS h
    | error f => exact .nothingToPush h
  | popS dst =>
    simp only [exec]
    cases h : m.operands with
    | nil => exact .nothingToPop h
    | cons v operands =>
      simp only [Stack.pop, store]
      cases hs : m.memory.store dst v with
      | ok memory => exact .popS h hs
      | error f => exact .popLost h hs
  | read dst type =>
    change Rule p order m (.read dst type) (attempt { m with input := m.restInput type }
      ((m.memory.store dst (m.nextRead type)).map _))
    cases hs : m.memory.store dst (m.nextRead type) with
    | ok memory => exact .read hs
    | error f => exact .readLost hs
  | write src =>
    simp only [exec, print]
    cases h : m.copied src with
    | error f => exact .nothingToWrite h
    | ok v =>
      obtain ⟨s, r, hp⟩ := exists_prints (m.sink .out) v
      simp only [put_of_prints hp]
      cases r with
      | ok u => exact .write h hp
      | error f => exact .notWritten h hp
  | dPrint src =>
    simp only [exec, print]
    cases h : m.copied src with
    | error f => exact .nothingToPrint h
    | ok v =>
      obtain ⟨s, r, hp⟩ := exists_prints (m.sink .err) v
      simp only [put_of_prints hp]
      cases r with
      | ok u => exact .dPrint h hp
      | error f => exact .notPrinted h hp
  | jumpIf equal target a b =>
    simp only [exec]
    cases h : m.jumpTest p (Command.jumpIf equal target a b).opcode target a b with
    | error f => exact .notTested h
    | ok kr =>
      obtain ⟨k, r⟩ := kr
      by_cases hr : r = equal
      · subst hr
        simp only [if_true]
        exact .jumpIf h
      · simp only [hr, if_false]
        have hr : r = !equal := by simpa using Bool.eq_not_of_ne hr
        exact .stay (hr ▸ h)
  | exit s =>
    simp only [exec]
    cases h : m.status s with
    | ok n => exact .exit h
    | error f => exact .noStatus h
  | brk =>
    simp only [exec, emit]
    cases h : (Writer.write (m.sink .err) (.str (m.dump order))).2 with
    | ok u => exact .brk (Prod.ext rfl h)
    | error f => exact .notDumped (Prod.ext rfl h)

/-- The rules determine how a line is carried out. -/
theorem exec_of_rule (h : Rule p line.order m line.command o) : m.exec p line = o := by
  obtain ⟨order, c⟩ := line
  cases h with
  | assign hc hs | notAssigned hc hs =>
    rw [exec_of_computed hc]
    change m.attempt ((m.memory.store _ _).map _) = _
    rw [hs]
    rfl
  | notComputed hc =>
    rw [exec_of_computed hc]
    rfl
  | read hs | readLost hs =>
    change attempt _ ((m.memory.store _ (m.nextRead _)).map _) = _
    rw [hs]
    rfl
  | write h hp | notWritten h hp =>
    simp only [exec, print, h]
    rw [put_of_prints (c := .out) hp]
    rfl
  | dPrint h hp | notPrinted h hp =>
    simp only [exec, print, h]
    rw [put_of_prints (c := .err) hp]
    rfl
  | brk h | notDumped h =>
    simp only [exec, emit, sink, h]
    rfl
  | _ => simp [exec, attempt, Except.map, Stack.push, Stack.pop, store, print, *]

theorem Rule.eq_exit {order : Int64} {c : Command} {n : Nat} (h : Rule p order m c (.exit n m')) :
    ∃ s, c = .exit s ∧ m.status s = .ok n ∧ m' = m := by
  cases h with
  | exit h => exact ⟨_, rfl, h, rfl⟩

/-! ## Steps -/

theorem step_of_line (h : p.line? m.pc = some line) : m.step p = (m.exec p line).progress := by
  simp only [step, h]

theorem step_of_rule (hl : p.line? m.pc = some line) (h : Rule p line.order m line.command o) :
    m.step p = o.progress := by
  rw [step_of_line hl, exec_of_rule h]

theorem rule_of_line (hl : p.line? m.pc = some line) :
    ∃ o, Rule p line.order m line.command o ∧ m.step p = o.progress :=
  ⟨m.exec p line, rule_exec, step_of_line hl⟩

theorem step_of_end (h : p.line? m.pc = none) : m.step p = .ended 0 m := by
  simp only [step, h]

theorem rule_of_running (h : m.step p = .running m') :
    ∃ line n, p.line? m.pc = some line ∧
      (Rule p line.order m line.command (.next n) ∧
          m' = { n with pc := n.pc + 1, completed := n.completed + 1 } ∨
        ∃ k, Rule p line.order m line.command (.jump k n) ∧
          m' = { n with pc := k, completed := n.completed + 1 }) := by
  cases hl : p.line? m.pc with
  | none => simp [step_of_end hl] at h
  | some line =>
    obtain ⟨o, hr, ho⟩ := rule_of_line hl
    rw [ho] at h
    cases o with
    | next n =>
      cases h
      exact ⟨line, n, rfl, .inl ⟨hr, rfl⟩⟩
    | jump k n =>
      cases h
      exact ⟨line, n, rfl, .inr ⟨k, hr, rfl⟩⟩
    | exit | fault => cases h

theorem rule_of_ended {status : Nat} (h : m.step p = .ended status m') :
    p.line? m.pc = none ∧ status = 0 ∧ m' = m ∨
      ∃ line n, p.line? m.pc = some line ∧
        Rule p line.order m line.command (.exit status n) ∧
        m' = { n with completed := n.completed + 1 } := by
  cases hl : p.line? m.pc with
  | none =>
    rw [step_of_end hl] at h
    cases h
    exact .inl ⟨rfl, rfl, rfl⟩
  | some line =>
    obtain ⟨o, hr, ho⟩ := rule_of_line hl
    rw [ho] at h
    cases o with
    | exit k n =>
      cases h
      exact .inr ⟨line, n, rfl, hr, rfl⟩
    | next | jump | fault => cases h

theorem rule_of_failed {f : Fault} (h : m.step p = .failed f m') :
    ∃ line, p.line? m.pc = some line ∧ Rule p line.order m line.command (.fault f m') := by
  cases hl : p.line? m.pc with
  | none => simp [step_of_end hl] at h
  | some line =>
    obtain ⟨o, hr, ho⟩ := rule_of_line hl
    rw [ho] at h
    cases o with
    | fault g n =>
      cases h
      exact ⟨line, rfl, hr⟩
    | next | jump | exit => cases h

end Machine

end Ippcode
