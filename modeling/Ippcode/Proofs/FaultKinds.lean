import Ippcode.Proofs.Acceptance
import Ippcode.Proofs.Dispatch
import Ippcode.Proofs.Memory
import Ippcode.Proofs.Rules

/-! # The faults of each opcode

An opcode can fault in a few ways only, whatever its operands and whatever the state. What a
symbol, a store or an operator can fault with is said once for each of them, and the faults of an
opcode are put together from the faults of what it does.
-/
namespace Ippcode

def FaultKind.access : List FaultKind := [.frameAccess, .variableAccess]

open FaultKind (access)

/-- The kinds of faults that carrying out an opcode can end in. -/
def Opcode.faultKinds : Opcode → List FaultKind
  | .createFrame | .label => []
  | .jump | .call => [.semantic]
  | .ret => [.missingValue]
  | .pushFrame | .popFrame => [.frameAccess]
  | .brk => [.output]
  | .defVar | .read | .type => access
  | .move | .pushS | .popS => access ++ [.missingValue]
  | .write | .dPrint => access ++ [.missingValue, .output]
  | .add | .sub | .mul | .lt | .gt | .eq | .and | .or | .not | .concat | .strLen =>
    access ++ [.operandType]
  | .idiv | .exit => access ++ [.operandType, .operandValue]
  | .int2Char | .stri2Int | .getChar | .setChar => access ++ [.operandType, .stringOperation]
  | .jumpIfEq | .jumpIfNeq => .semantic :: access ++ [.operandType]

/-- The kinds of faults that only a document, a command line or a list of instructions can have. -/
def FaultKind.beforeRun : List FaultKind := [.programStructure, .parameter, .inputFile, .sourceFormat]

theorem Opcode.faultKinds_disjoint (op : Opcode) :
    ∀ k ∈ op.faultKinds, k ∉ FaultKind.beforeRun := by
  cases op <;> decide

namespace Memory

variable {mem mem' : Memory} {f : Fault}

theorem kind_of_frame {tag : FrameTag} (h : mem.frame tag = .error f) : f.kind = .frameAccess := by
  unfold frame at h
  split at h
  · cases h
  all_goals
    split at h <;> cases h
    rfl

theorem kind_of_load {v : VarRef} (h : mem.load v = .error f) : f.kind ∈ access := by
  obtain h | ⟨g, _, h⟩ := Except.bind_eq_error.1 h
  · simp [kind_of_frame h, access]
  · unfold Frame.get at h
    split at h <;> cases h
    simp [Fault.kind, access]

theorem kind_of_store {v : VarRef} {x : Value} (h : mem.store v x = .error f) : f.kind ∈ access := by
  obtain h | ⟨g, _, h⟩ := update_eq_error_iff.1 h
  · simp [kind_of_frame h, access]
  · unfold Frame.set at h
    split at h <;> cases h
    simp [Fault.kind, access]

theorem kind_of_declare {v : VarRef} (h : mem.declare v = .error f) : f.kind ∈ access := by
  obtain h | ⟨g, _, h⟩ := update_eq_error_iff.1 h
  · simp [kind_of_frame h, access]
  · unfold Frame.declare at h
    split at h <;> cases h
    simp [Fault.kind, access]

theorem kind_of_pushTemporary (h : mem.pushTemporary = .error f) : f.kind = .frameAccess := by
  unfold pushTemporary at h
  split at h <;> cases h
  rfl

theorem kind_of_popLocal (h : mem.popLocal = .error f) : f.kind = .frameAccess := by
  unfold popLocal at h
  split at h <;> cases h
  rfl

end Memory

namespace Operator

variable {op : Opcode} {a b : Value} {f : Fault}

theorem kind_of_bothAssigned (h : bothAssigned op a b = .error f) : f.kind = .operandType := by
  unfold bothAssigned at h
  split at h <;> cases h
  rfl

theorem kind_of_arithmetic {g : Int64 → Int64 → Except Fault Int64}
    (h : arithmetic op g a b = .error f) :
    f.kind = .operandType ∨ ∃ x y, g x y = .error f := by
  unfold arithmetic at h
  split at h
  · exact .inr ⟨_, _, Except.map_eq_error.1 h⟩
  · cases h
    exact .inl rfl

theorem kind_of_logical {g : Bool → Bool → Bool} (h : logical op g a b = .error f) :
    f.kind = .operandType := by
  unfold logical at h
  split at h <;> cases h
  rfl

theorem kind_of_relational {test : Value → Value → Option Bool}
    (h : relational op test a b = .error f) : f.kind = .operandType := by
  obtain h | ⟨_, _, h⟩ := Except.bind_eq_error.1 h
  · exact kind_of_bothAssigned h
  · split at h
    · cases h
      rfl
    · split at h <;> cases h
      rfl

theorem kind_of_equals (h : equals a b = .error f) : f.kind = .operandType := by
  obtain h | ⟨_, _, h⟩ := Except.bind_eq_error.1 h
  · exact kind_of_bothAssigned h
  · split at h <;> cases h
    rfl

theorem kind_of_jumpEquals (h : jumpEquals op a b = .error f) : f.kind = .operandType := by
  obtain h | ⟨_, _, h⟩ := Except.bind_eq_error.1 h
  · exact kind_of_bothAssigned h
  · split at h <;> cases h
    rfl

theorem kind_of_position {cs : List Char} {i : Int64} (h : position op cs i = .error f) :
    f.kind = .stringOperation := by
  unfold position at h
  split at h <;> cases h
  rfl

theorem kind_of_charAt (h : charAt op a b = .error f) :
    f.kind = .operandType ∨ f.kind = .stringOperation := by
  unfold charAt at h
  split at h
  · exact .inr (kind_of_position (Except.map_eq_error.1 h))
  · cases h
    exact .inl rfl

theorem kind_of_concat (h : concat a b = .error f) : f.kind = .operandType := by
  unfold concat at h
  split at h <;> cases h
  rfl

theorem kind_of_setChar {s : Value} (h : setChar s a b = .error f) :
    f.kind = .operandType ∨ f.kind = .stringOperation := by
  unfold setChar at h
  split at h
  · right
    obtain h | ⟨_, _, h⟩ := Except.bind_eq_error.1 h
    · exact kind_of_position h
    · split at h <;> cases h
      rfl
  · cases h
    exact .inl rfl
  · cases h
    exact .inl rfl

end Operator

open Operator

theorem UnaryOp.mem_faultKinds (op : UnaryOp) {k : FaultKind} (h : k ∈ access ∨ k = .operandType) :
    k ∈ op.opcode.faultKinds := by
  obtain h | h := h <;> cases op <;> simp [h, opcode, Opcode.faultKinds]

theorem BinaryOp.mem_faultKinds (op : BinaryOp) {k : FaultKind}
    (h : k ∈ access ∨ k = .operandType) : k ∈ op.opcode.faultKinds := by
  obtain h | h := h <;> cases op <;> simp [h, opcode, Opcode.faultKinds]

theorem UnaryOp.kind_of_apply {op : UnaryOp} {a : Value} {f : Fault} (h : op.apply a = .error f) :
    f.kind ∈ op.opcode.faultKinds := by
  unfold apply at h
  split at h
  · cases h
  · unfold character at h
    split at h <;> cases h
    simp [opcode, Opcode.faultKinds, Fault.kind]
  · cases h
  · cases h
    cases op <;> simp [opcode, Opcode.faultKinds, Fault.kind]

theorem BinaryOp.kind_of_apply {op : BinaryOp} {a b : Value} {f : Fault}
    (h : op.apply a b = .error f) : f.kind ∈ op.opcode.faultKinds := by
  cases op with
  | add | sub | mul =>
    obtain h | ⟨_, _, h⟩ := kind_of_arithmetic h
    · simp [h, opcode, Opcode.faultKinds]
    · cases h
  | idiv =>
    obtain h | ⟨x, y, h⟩ := kind_of_arithmetic h
    · simp [h, opcode, Opcode.faultKinds]
    · unfold quotient at h
      split at h <;> cases h
      simp [opcode, Opcode.faultKinds, Fault.kind]
  | lt => simp [kind_of_relational h, opcode, Opcode.faultKinds]
  | gt =>
    have h : relational .gt (fun a b => less? b a) a b = .error f := h
    simp [kind_of_relational h, opcode, Opcode.faultKinds]
  | eq => simp [kind_of_equals (Except.map_eq_error.1 h), opcode, Opcode.faultKinds]
  | and | or => simp [kind_of_logical h, opcode, Opcode.faultKinds]
  | concat => simp [kind_of_concat h, opcode, Opcode.faultKinds]
  | stri2Int | getChar =>
    obtain h | h := kind_of_charAt (Except.map_eq_error.1 h) <;>
      simp [h, opcode, Opcode.faultKinds]

namespace Machine

variable {ρ σ : Type} {m m' : Machine ρ σ} {f : Fault}

theorem kind_of_value {s : Symbol} (h : m.value s = .error f) : f.kind ∈ access := by
  cases s with
  | const v => cases h
  | var v => exact Memory.kind_of_load h

theorem kind_of_source {op : Opcode} {s : Symbol} (h : m.source op s = .error f) :
    f.kind ∈ access ∨ f.kind = .operandType := by
  obtain h | ⟨v, _, h⟩ := Except.bind_eq_error.1 h
  · exact .inl (kind_of_value h)
  · right
    split at h <;> cases h
    rfl

theorem kind_of_copied {s : Symbol} (h : m.copied s = .error f) :
    f.kind ∈ access ∨ f.kind = .missingValue := by
  obtain h | ⟨v, _, h⟩ := Except.bind_eq_error.1 h
  · exact .inl (kind_of_value h)
  · right
    split at h <;> cases h
    rfl

theorem kind_of_status {s : Symbol} (h : m.status s = .error f) :
    f.kind ∈ access ∨ f.kind = .operandType ∨ f.kind = .operandValue := by
  obtain h | ⟨v, _, h⟩ := Except.bind_eq_error.1 h
  · exact .inl (kind_of_value h)
  · right
    split at h
    · split at h <;> cases h
      exact .inr rfl
    · cases h
      exact .inl rfl

theorem kind_of_label {p : Program} {name : String} (h : p.label name = .error f) :
    f.kind = .semantic := by
  unfold Program.label at h
  split at h <;> cases h
  rfl

theorem kind_of_jumpTest {p : Program} {op : Opcode} {target : String} {left right : Symbol}
    (h : m.jumpTest p op target left right = .error f) :
    f.kind = .semantic ∨ f.kind ∈ access ∨ f.kind = .operandType := by
  simp only [jumpTest, Except.bind_eq_error] at h
  obtain h | ⟨k, _, h | ⟨a, _, h | ⟨b, _, h | ⟨r, _, h⟩⟩⟩⟩ := h
  · exact .inl (kind_of_label h)
  · exact .inr (.inl (kind_of_value h))
  · exact .inr (.inl (kind_of_value h))
  · exact .inr (.inr (kind_of_jumpEquals h))
  · cases h

theorem kind_of_computed {c : Command} {dst : VarRef}
    (h : m.computed c = some (dst, .error f)) : f.kind ∈ c.opcode.faultKinds := by
  cases c <;> simp only [computed, Option.some.injEq, Prod.mk.injEq, reduceCtorEq] at h <;>
    obtain ⟨rfl, h⟩ := h
  case move dst src =>
    have hk := kind_of_copied h
    simpa [Command.opcode, Opcode.faultKinds] using hk
  case unary op dst src =>
    obtain h | ⟨a, _, h⟩ := Except.bind_eq_error.1 h
    · exact op.mem_faultKinds (kind_of_source h)
    · exact UnaryOp.kind_of_apply h
  case binary op dst left right =>
    simp only [Except.bind_eq_error] at h
    obtain h | ⟨a, _, h | ⟨b, _, h⟩⟩ := h
    · exact op.mem_faultKinds (kind_of_source h)
    · exact op.mem_faultKinds (kind_of_source h)
    · exact BinaryOp.kind_of_apply h
  case setChar dst index replacement =>
    have hsource : ∀ s, m.source .setChar s = .error f → f.kind ∈ Opcode.setChar.faultKinds := by
      intro s hs
      obtain h | h := kind_of_source hs <;> simp [h, Opcode.faultKinds]
    simp only [Except.bind_eq_error] at h
    obtain h | ⟨s, _, h | ⟨i, _, h | ⟨r, _, h⟩⟩⟩ := h
    · exact hsource _ h
    · exact hsource _ h
    · exact hsource _ h
    · obtain h | h := kind_of_setChar h <;> simp [h, Command.opcode, Opcode.faultKinds]
  case type dst src =>
    obtain h | ⟨v, _, h⟩ := Except.bind_eq_error.1 h
    · exact kind_of_value h
    · cases h

theorem access_of_computed {c : Command} {dst : VarRef} {r : Except Fault Value}
    (h : m.computed c = some (dst, r)) {k : FaultKind} (hk : k ∈ access) :
    k ∈ c.opcode.faultKinds := by
  cases c <;> simp only [computed, reduceCtorEq] at h
  case unary op _ _ => exact op.mem_faultKinds (.inl hk)
  case binary op _ _ _ => exact op.mem_faultKinds (.inl hk)
  all_goals simp [hk, Command.opcode, Opcode.faultKinds]

variable [Writer σ]

theorem kind_of_write {s s' : σ} {v : Value} (h : Writer.write s v = (s', .error f)) :
    f.kind = .output := by
  obtain ⟨reason, rfl⟩ := Writer.outputFailed_of_write (congrArg Prod.snd h)
  rfl

theorem kind_of_prints {s s' : σ} {v : Value} (h : Prints s v s' (.error f)) :
    f.kind = .output := by
  cases h with
  | call _ hw => exact kind_of_write hw

variable [Reader ρ]

/-- A line that faults does so in one of the ways of its opcode. -/
theorem kind_of_rule {p : Program} {order : Int64} {c : Command}
    (h : Rule p order m c (.fault f m')) : f.kind ∈ c.opcode.faultKinds := by
  cases h with
  | notComputed hc => exact kind_of_computed hc
  | notAssigned hc hs => exact access_of_computed hc (Memory.kind_of_store hs)
  | notPushed h => simp [Memory.kind_of_pushTemporary h, Command.opcode, Opcode.faultKinds]
  | notPopped h => simp [Memory.kind_of_popLocal h, Command.opcode, Opcode.faultKinds]
  | notDeclared h => exact Memory.kind_of_declare h
  | notCalled h | notJumped h => simp [kind_of_label h, Command.opcode, Opcode.faultKinds]
  | notCalledFrom | nothingToPop => simp [Fault.kind, Command.opcode, Opcode.faultKinds]
  | nothingToPush h | nothingToWrite h | nothingToPrint h =>
    obtain h | h := kind_of_copied h <;> simp [h, Command.opcode, Opcode.faultKinds]
  | popLost _ hs => simp [Memory.kind_of_store hs, Command.opcode, Opcode.faultKinds]
  | readLost hs => exact Memory.kind_of_store hs
  | notWritten _ hp | notPrinted _ hp =>
    simp [kind_of_prints hp, Command.opcode, Opcode.faultKinds]
  | @notTested equal _ _ _ _ h =>
    have hk := kind_of_jumpTest h
    cases equal <;> simpa [Command.opcode, Opcode.faultKinds] using hk
  | noStatus h =>
    have hk := kind_of_status h
    simpa [Command.opcode, Opcode.faultKinds] using hk
  | notDumped h => simp [kind_of_write h, Command.opcode, Opcode.faultKinds]

/-- The records of an accepted list never crash, and each faults in the ways of its opcode. Whatever
the reader and the writers do and whatever state the machine is in, the run of the records as they
stand is the run of the commands they were matched with. -/
theorem dispatch_confined {is : List Instruction} {p : Program}
    (hp : Program.ofInstructions is = .ok p) (m : Machine ρ σ) :
    (∀ n, m.dispatchRun p n = .ok (m.run p n)) ∧ m.dispatchStep p = .ok (m.step p) ∧
      ∀ i, p.instruction? m.pc = some i → i ∈ is ∧
        ∀ f m', m.step p = .failed f m' →
          f.kind ∈ i.opcode.faultKinds ∧ f.kind ∉ FaultKind.beforeRun := by
  refine ⟨m.dispatchRun_eq p, m.dispatchStep_eq p, ?_⟩
  intro i hi
  refine ⟨Program.mem_of_instruction? hp hi, ?_⟩
  intro f m' hf
  obtain ⟨line, hl, rfl⟩ := Program.line?_of_instruction? hi
  obtain ⟨line', hl', hr⟩ := rule_of_failed hf
  cases hl.symm.trans hl'
  have hk := kind_of_rule hr
  exact ⟨hk, Opcode.faultKinds_disjoint _ _ hk⟩

/-- A constant without a value is accepted, and dividing by it faults as a matter of types. -/
theorem dispatch_confined_unassigned :
    ∃ (p : Program) (f : Fault) (m' : Machine), Program.ofInstructions
        [⟨2, .idiv, [.symbol (.var ⟨.gf, "q"⟩), .symbol (.const (.int 7)), .symbol (.const .uninit)]⟩,
          ⟨1, .defVar, [.symbol (.var ⟨.gf, "q"⟩)]⟩] = .ok p ∧
      (start ⟨[]⟩ (.empty none) (.empty (some 0))).dispatchRun p 2 = .ok (.failed f m') ∧
      m'.dispatchStep p = .ok (.failed f m') ∧ f.kind ∈ Opcode.idiv.faultKinds ∧
      f.kind ∉ FaultKind.beforeRun := by
  let declaration : Line := ⟨1, .defVar ⟨.gf, "q"⟩⟩
  let division : Line := ⟨2, .binary .idiv ⟨.gf, "q"⟩ (.const (.int 7)) (.const .uninit)⟩
  have hp : Program.ofInstructions _ = .ok ⟨#[declaration, division], []⟩ :=
    Program.ofInstructions_of_perm [division, declaration] (by decide) (by decide) (by decide) rfl
  let m' : Machine :=
    { start ⟨[]⟩ (.empty none) (.empty (some 0)) with
      memory := ⟨⟨[("q", .uninit)], by decide⟩, none, []⟩, pc := 1, completed := 1 }
  obtain ⟨hrun, -⟩ := dispatch_confined hp (start m'.input m'.stdout m'.stderr)
  obtain ⟨-, hstep, hkind⟩ := dispatch_confined hp m'
  exact ⟨_, .unassignedSource .idiv (.const .uninit), m', hp, hrun 2, hstep,
    (hkind _ rfl).2 _ _ rfl⟩

end Machine

end Ippcode
