import Ippcode.Proofs.Acceptance
import Ippcode.Proofs.Access

/-! # Operators

An operator reads its sources from left to right, computes, and assigns the result, in this order:
the values that it computes with are those before the step, also where the destination is one of the
sources, and what fails first is what it fails with. What each operator reads and computes is a
table over the opcodes, so that the sixteen of them are one argument.
-/
namespace Ippcode

namespace Opcode

/-- The opcodes that compute a value from the values of their sources. -/
def operators : List Opcode :=
  [.add, .sub, .mul, .idiv, .lt, .gt, .eq, .and, .or, .not, .int2Char, .stri2Int, .concat, .strLen,
    .getChar, .setChar]

/-- What an operator makes of the values of its sources, if they are as many as it has. -/
def operation? : Opcode → List Value → Option (Except Fault Value)
  | .add, [a, b] => some (BinaryOp.add.apply a b)
  | .sub, [a, b] => some (BinaryOp.sub.apply a b)
  | .mul, [a, b] => some (BinaryOp.mul.apply a b)
  | .idiv, [a, b] => some (BinaryOp.idiv.apply a b)
  | .lt, [a, b] => some (BinaryOp.lt.apply a b)
  | .gt, [a, b] => some (BinaryOp.gt.apply a b)
  | .eq, [a, b] => some (BinaryOp.eq.apply a b)
  | .and, [a, b] => some (BinaryOp.and.apply a b)
  | .or, [a, b] => some (BinaryOp.or.apply a b)
  | .not, [a] => some (UnaryOp.not.apply a)
  | .int2Char, [a] => some (UnaryOp.int2Char.apply a)
  | .stri2Int, [a, b] => some (BinaryOp.stri2Int.apply a b)
  | .concat, [a, b] => some (BinaryOp.concat.apply a b)
  | .strLen, [a] => some (UnaryOp.strLen.apply a)
  | .getChar, [a, b] => some (BinaryOp.getChar.apply a b)
  | .setChar, [target, index, replacement] => some (Operator.setChar target index replacement)
  | _, _ => none

theorem mem_operators_unary (op : UnaryOp) : op.opcode ∈ operators := by cases op <;> decide

theorem mem_operators_binary (op : BinaryOp) : op.opcode ∈ operators := by cases op <;> decide

theorem operation?_unary (op : UnaryOp) (a : Value) :
    op.opcode.operation? [a] = some (op.apply a) := by
  cases op <;> rfl

theorem operation?_binary (op : BinaryOp) (a b : Value) :
    op.opcode.operation? [a, b] = some (op.apply a b) := by
  cases op <;> rfl

theorem operation?_setChar (a b c : Value) :
    Opcode.setChar.operation? [a, b, c] = some (Operator.setChar a b c) := rfl

end Opcode

namespace Machine

variable {ρ σ : Type} {m m' : Machine ρ σ} {c : Command} {f : Fault} {op : Opcode}
  {sources : List Symbol} {vs : List Value}

/-- The symbol has a value. -/
def Assigned (m : Machine ρ σ) (s : Symbol) : Prop := ∃ v, m.value s = .ok v ∧ v ≠ .uninit

/-- The values that the symbols have, all of them assigned. -/
def Resolves (m : Machine ρ σ) : List Symbol → List Value → Prop :=
  List.Forall₂ fun s v => m.value s = .ok v ∧ v ≠ .uninit

/-- The first check of an operator that fails: for the sources from left to right whether they can
be read and are assigned, then what the operator makes of their values, then the destination. -/
inductive OperatorFault (m : Machine ρ σ) (op : Opcode) (dst : VarRef) (sources : List Symbol) :
    Fault → Prop
  | source {before after : List Symbol} {s : Symbol} {f : Fault}
    (hs : sources = before ++ s :: after) (hb : ∀ x ∈ before, m.Assigned x)
    (h : m.SourceFault op s f) : OperatorFault m op dst sources f
  | operator {vs : List Value} {f : Fault} (hv : m.Resolves sources vs)
    (h : op.operation? vs = some (.error f)) : OperatorFault m op dst sources f
  | destination {vs : List Value} {v : Value} {f : Fault} (hv : m.Resolves sources vs)
    (h : op.operation? vs = some (.ok v)) (hd : m.memory.Lacks dst f) :
    OperatorFault m op dst sources f

theorem Resolves.assigned (h : m.Resolves sources vs) : ∀ s ∈ sources, m.Assigned s := by
  induction h with
  | nil => nofun
  | cons hfirst _ ih => exact List.forall_mem_cons.2 ⟨⟨_, hfirst⟩, ih⟩

theorem mapM_source_eq_ok_iff : sources.mapM (m.source op) = .ok vs ↔ m.Resolves sources vs := by
  rw [Except.mapM_eq_ok_iff, Resolves]
  simp only [source_eq_ok_iff]

theorem mapM_source_eq_error_iff :
    sources.mapM (m.source op) = .error f ↔ ∃ before s after,
      sources = before ++ s :: after ∧ (∀ x ∈ before, m.Assigned x) ∧ m.SourceFault op s f := by
  rw [Except.mapM_eq_error_iff]
  simp only [source_eq_ok_iff, source_eq_error_iff, Assigned]

/-- What the command of an operator computes. -/
theorem computed_of_operator (m : Machine ρ σ) (hop : c.opcode ∈ Opcode.operators) :
    ∃ (dst : VarRef) (apply : List Value → Except Fault Value),
      c.args.head? = some (.symbol (.var dst)) ∧
      (∀ vs, vs.length = c.reads.length → c.opcode.operation? vs = some (apply vs)) ∧
      m.computed c = some (dst, c.reads.mapM (m.source c.opcode) >>= apply) := by
  cases c with
  | unary op dst src =>
    refine ⟨dst, fun vs => (op.opcode.operation? vs).getD (.ok .nil), rfl, ?_, ?_⟩
    · intro vs hvs
      obtain ⟨a, rfl⟩ := List.length_eq_one_iff.1 hvs
      simp only [Command.opcode, Opcode.operation?_unary, Option.getD_some]
    · simp only [computed, Command.reads, Command.opcode, List.mapM_cons, List.mapM_nil, bind_assoc,
        pure_bind, Opcode.operation?_unary, Option.getD_some]
  | binary op dst left right =>
    refine ⟨dst, fun vs => (op.opcode.operation? vs).getD (.ok .nil), rfl, ?_, ?_⟩
    · intro vs hvs
      obtain ⟨a, b, rfl⟩ := List.length_eq_two.1 hvs
      simp only [Command.opcode, Opcode.operation?_binary, Option.getD_some]
    · simp only [computed, Command.reads, Command.opcode, List.mapM_cons, List.mapM_nil, bind_assoc,
        pure_bind, Opcode.operation?_binary, Option.getD_some]
  | setChar dst index replacement =>
    refine ⟨dst, fun vs => (Opcode.setChar.operation? vs).getD (.ok .nil), rfl, ?_, ?_⟩
    · intro vs hvs
      obtain ⟨a, b, c, rfl⟩ := List.length_eq_three.1 hvs
      simp only [Command.opcode, Opcode.operation?_setChar, Option.getD_some]
    · simp only [computed, Command.reads, Command.opcode, List.mapM_cons, List.mapM_nil, bind_assoc,
        pure_bind, Opcode.operation?_setChar, Option.getD_some]
  | jumpIf equal => cases equal <;> simp [Command.opcode, Opcode.operators] at hop
  | _ => simp [Command.opcode, Opcode.operators] at hop

/-- The same in terms of the values of the sources. -/
theorem computed_operator_iff (m : Machine ρ σ) (hop : c.opcode ∈ Opcode.operators) :
    ∃ dst r, c.args.head? = some (.symbol (.var dst)) ∧ m.computed c = some (dst, r) ∧
      (∀ v, r = .ok v ↔ ∃ vs, m.Resolves c.reads vs ∧ c.opcode.operation? vs = some (.ok v)) ∧
      ∀ f, r = .error f ↔
        (∃ before s after, c.reads = before ++ s :: after ∧ (∀ x ∈ before, m.Assigned x) ∧
          m.SourceFault c.opcode s f) ∨
        ∃ vs, m.Resolves c.reads vs ∧ c.opcode.operation? vs = some (.error f) := by
  obtain ⟨dst, apply, hargs, happly, hc⟩ := computed_of_operator m hop
  have hvalue (vs : List Value) (r : Except Fault Value) :
      c.reads.mapM (m.source c.opcode) = .ok vs ∧ apply vs = r ↔
        m.Resolves c.reads vs ∧ c.opcode.operation? vs = some r := by
    rw [mapM_source_eq_ok_iff]
    refine and_congr_right ?_
    intro hv
    rw [happly vs hv.length_eq.symm, Option.some.injEq]
  refine ⟨dst, _, hargs, hc, ?_, ?_⟩
  · intro v
    simp only [Except.bind_eq_ok, hvalue]
  · intro f
    simp only [Except.bind_eq_error, mapM_source_eq_error_iff, hvalue]

variable [Reader ρ] [Writer σ] {p : Program} {i : Instruction}

/-- An operator succeeds if its sources are assigned, it accepts their values and its destination is
declared, and then the destination holds what it makes of the values that the sources had before,
which the destination may be among. If it does not succeed, it fails with the first check that
fails, and nothing has changed. -/
theorem operator_reads_then_writes (p : Program) (m : Machine ρ σ)
    (hi : p.instruction? m.pc = some i) (hop : i.opcode ∈ Opcode.operators) :
    ∃ dst, i.args.head? = some (.symbol (.var dst)) ∧
      ((∃ m', m.step p = .running m') ↔
        (∃ vs v, m.Resolves i.reads vs ∧ i.opcode.operation? vs = some (.ok v)) ∧
          m.memory.Has dst) ∧
      (∀ vs v, m.Resolves i.reads vs → i.opcode.operation? vs = some (.ok v) → m.memory.Has dst →
        ∃ memory, m.memory.store dst v = .ok memory ∧ memory.load dst = .ok v ∧
          m.step p = .running { m with memory, pc := m.pc + 1, completed := m.completed + 1 }) ∧
      ∀ f m', m.step p = .failed f m' ↔ m' = m ∧ m.OperatorFault i.opcode dst i.reads f := by
  obtain ⟨line, hl, rfl⟩ := Program.line?_of_instruction? hi
  obtain ⟨dst, r, hargs, hc, hok, herror⟩ := computed_operator_iff m hop
  have hopcode : line.instruction.opcode = line.command.opcode := rfl
  rw [Line.reads_instruction, hopcode]
  have hstep (vs : List Value) (v : Value) (hv : m.Resolves line.command.reads vs)
      (hresult : line.command.opcode.operation? vs = some (.ok v)) (hdst : m.memory.Has dst) :
      ∃ memory, m.memory.store dst v = .ok memory ∧ memory.load dst = .ok v ∧
        m.step p = .running { m with memory, pc := m.pc + 1, completed := m.completed + 1 } := by
    obtain ⟨memory, hs⟩ := Memory.exists_store_iff.2 hdst
    have hr := (hok v).2 ⟨vs, hv, hresult⟩
    exact ⟨memory, hs, Memory.load_of_store hs,
      (step_eq_running_iff hl hc).2 ⟨v, memory, hr, hs, rfl⟩⟩
  refine ⟨dst, hargs, ⟨?_, ?_⟩, hstep, ?_⟩
  · rintro ⟨m', h⟩
    obtain ⟨v, memory, hr, hs, _⟩ := (step_eq_running_iff hl hc).1 h
    obtain ⟨vs, hvs⟩ := (hok v).1 hr
    exact ⟨⟨vs, v, hvs⟩, Memory.exists_store_iff.1 ⟨memory, hs⟩⟩
  · rintro ⟨⟨vs, v, hv, hresult⟩, hdst⟩
    obtain ⟨memory, _, _, h⟩ := hstep vs v hv hresult hdst
    exact ⟨_, h⟩
  · intro f m'
    rw [step_eq_failed_iff hl hc, herror]
    refine and_congr_right ?_
    rintro rfl
    constructor
    · rintro ((⟨before, s, after, hs, hb, h⟩ | ⟨vs, hv, h⟩) | ⟨⟨v, hr⟩, hd⟩)
      · exact .source hs hb h
      · exact .operator hv h
      · obtain ⟨vs, hv, h⟩ := (hok v).1 hr
        exact .destination hv h hd
    · rintro (⟨hs, hb, h⟩ | ⟨hv, h⟩ | ⟨hv, h, hd⟩)
      · exact .inl (.inl ⟨_, _, _, hs, hb, h⟩)
      · exact .inl (.inr ⟨_, hv, h⟩)
      · exact .inr ⟨⟨_, (hok _).2 ⟨_, hv, h⟩⟩, hd⟩

/-- Doubling a variable, whose old value is read twice before the new one is assigned. -/
theorem operator_reads_then_writes_doubled :
    ∃ (p : Program) (m m' : Machine),
      Program.ofInstructions [⟨1, .defVar, [.symbol (.var ⟨.gf, "x"⟩)]⟩,
        ⟨2, .move, [.symbol (.var ⟨.gf, "x"⟩), .symbol (.const (.int 3))]⟩,
        ⟨3, .add, [.symbol (.var ⟨.gf, "x"⟩), .symbol (.var ⟨.gf, "x"⟩),
          .symbol (.var ⟨.gf, "x"⟩)]⟩] = .ok p ∧
      (start ⟨[]⟩ (.empty none) (.empty none) : Machine).run p 2 = .running m ∧
      m.step p = .running m' ∧ m'.memory.load ⟨.gf, "x"⟩ = .ok (.int 6) := by
  let x : VarRef := ⟨.gf, "x"⟩
  let p : Program := ⟨#[⟨1, .defVar x⟩, ⟨2, .move x (.const (.int 3))⟩,
    ⟨3, .binary .add x (.var x) (.var x)⟩], []⟩
  have hp : Program.ofInstructions _ = .ok p :=
    Program.ofInstructions_of_perm p.lines.toList (.refl _) (by decide) (by decide) rfl
  let m : Machine := ((start ⟨[]⟩ (.empty none) (.empty none) : Machine).run p 2).machine
  have hi : p.instruction? m.pc =
      some ⟨3, .add, [.symbol (.var x), .symbol (.var x), .symbol (.var x)]⟩ := rfl
  have hx : m.value (.var x) = .ok (.int 3) := rfl
  have hv : m.Resolves [.var x, .var x] [.int 3, .int 3] :=
    .cons ⟨hx, nofun⟩ (.cons ⟨hx, nofun⟩ .nil)
  have hdeclared : m.memory.Has x := ⟨m.memory.global, rfl, by decide⟩
  obtain ⟨dst, hdst, _, hresult, _⟩ := operator_reads_then_writes p m hi (by decide)
  cases hdst
  obtain ⟨memory, _, hload, hstep⟩ := hresult _ (.int 6) hv rfl hdeclared
  exact ⟨p, m, _, hp, rfl, hstep, hload⟩

end Machine

end Ippcode
