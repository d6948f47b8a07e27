import Ippcode.Proofs.FaultKinds

/-! # Access to variables

A variable can be read exactly if it can be assigned: its frame exists and declares its name. If it
cannot, both fail alike, and the frame is looked at before the name. Operators, and whatever copies
or prints, also refuse to read a variable that is declared but unassigned.
-/
namespace Ippcode

namespace Frame

variable {g : Frame} {name : String} {f : Fault}

theorem get_eq_error_iff : g.get name = .error f ↔ name ∉ g.names ∧ f = .variableMissing name := by
  unfold get
  rw [← get?_eq_none_iff]
  cases g.get? name <;> simp [eq_comm]

theorem set_eq_error_iff {x : Value} :
    g.set name x = .error f ↔ name ∉ g.names ∧ f = .variableMissing name := by
  unfold set
  by_cases h : name ∈ g.names <;> simp [h, eq_comm]

end Frame

namespace Memory

/-- The variable is declared in a frame that exists. -/
def Has (mem : Memory) (v : VarRef) : Prop := ∃ g, mem.frame v.frame = .ok g ∧ v.name ∈ g.names

/-- What is wrong with a variable: its frame does not exist, or does not declare its name. -/
inductive Lacks (mem : Memory) (v : VarRef) : Fault → Prop
  | frame {f : Fault} (h : mem.frame v.frame = .error f) (hk : f.kind = .frameAccess) :
    Lacks mem v f
  | name {g : Frame} (h : mem.frame v.frame = .ok g) (hn : v.name ∉ g.names) :
    Lacks mem v (.variableMissing v.name)

variable {mem : Memory} {v : VarRef} {f : Fault}

theorem lacks_iff : mem.Lacks v f ↔ mem.frame v.frame = .error f ∨
    ∃ g, mem.frame v.frame = .ok g ∧ v.name ∉ g.names ∧ f = .variableMissing v.name := by
  constructor
  · rintro (⟨h, -⟩ | ⟨h, hn⟩)
    · exact .inl h
    · exact .inr ⟨_, h, hn, rfl⟩
  · rintro (h | ⟨g, h, hn, rfl⟩)
    · exact .frame h (kind_of_frame h)
    · exact .name h hn

theorem load_eq_error_iff : mem.load v = .error f ↔ mem.Lacks v f := by
  change mem.frame v.frame >>= (·.get v.name) = .error f ↔ _
  rw [Except.bind_eq_error, lacks_iff]
  simp only [Frame.get_eq_error_iff]

theorem store_eq_error_iff {x : Value} : mem.store v x = .error f ↔ mem.Lacks v f := by
  rw [store, update_eq_error_iff, lacks_iff]
  simp only [Frame.set_eq_error_iff]

/-- Whether a variable can be assigned does not depend on the value. -/
theorem exists_store_iff {x : Value} : (∃ mem', mem.store v x = .ok mem') ↔ mem.Has v := by
  cases hs : mem.store v x with
  | ok mem' =>
    refine ⟨fun _ => ?_, fun _ => ⟨mem', rfl⟩⟩
    obtain ⟨g, g', hg, hset, -⟩ := frame_of_update hs
    refine ⟨g, hg, ?_⟩
    by_contra hn
    rw [Frame.set_eq_error_iff.2 ⟨hn, rfl⟩] at hset
    cases hset
  | error f =>
    constructor
    · rintro ⟨mem', h⟩
      cases h
    · rintro ⟨g, hg, hmem⟩
      obtain ⟨h, -⟩ | ⟨h, hn⟩ := store_eq_error_iff.1 hs
      · rw [hg] at h
        cases h
      · rw [hg] at h
        cases h
        exact absurd hmem hn

end Memory

/-! ## What a command reads -/

/-- The symbols that a command reads. -/
def Command.reads : Command → List Symbol
  | .move _ a | .pushS a | .unary _ _ a | .write a | .type _ a | .exit a | .dPrint a => [a]
  | .binary _ _ a b | .jumpIf _ _ a b => [a, b]
  | .setChar dst a b => [.var dst, a, b]
  | _ => []

/-- The operand, if it stands in a position for symbols. -/
def Slot.symbol? : Slot → Argument → Option Symbol
  | .symbol, .symbol s => some s
  | _, _ => none

/-- The symbols that an instruction reads: its operands in positions for symbols, and for `SETCHAR`
before them the destination, which holds the string that is changed. -/
def Instruction.reads (i : Instruction) : List Symbol :=
  let symbols := (i.opcode.slots.zip i.args).filterMap fun (slot, arg) => slot.symbol? arg
  match i.opcode, i.args with
  | .setChar, .symbol dst :: _ => dst :: symbols
  | _, _ => symbols

theorem Line.reads_instruction (l : Line) : l.instruction.reads = l.command.reads := by
  obtain ⟨order, c⟩ := l
  cases c with
  | unary op | binary op => cases op <;> rfl
  | jumpIf equal => cases equal <;> rfl
  | _ => rfl

namespace Machine

variable {ρ σ : Type} {m m' : Machine ρ σ} {s : Symbol} {v : Value} {f : Fault}

/-- What keeps an operator from reading a symbol: it is a variable that memory lacks, or it is
unassigned. -/
inductive SourceFault (m : Machine ρ σ) (op : Opcode) : Symbol → Fault → Prop
  | lacks {v : VarRef} {f : Fault} (h : m.memory.Lacks v f) : SourceFault m op (.var v) f
  | unassigned {s : Symbol} (h : m.value s = .ok .uninit) :
    SourceFault m op s (.unassignedSource op s)

/-- A value that is refused if it is unassigned. -/
theorem refused_eq_ok_iff {x : Except Fault Value} {refusal : Fault} :
    (x >>= fun | .uninit => .error refusal | v => .ok v) = .ok v ↔ x = .ok v ∧ v ≠ .uninit := by
  rw [Except.bind_eq_ok]
  constructor
  · rintro ⟨y, hy, h⟩
    cases y <;> cases h <;> exact ⟨hy, nofun⟩
  · rintro ⟨h, hv⟩
    refine ⟨v, h, ?_⟩
    cases v with
    | uninit => exact absurd rfl hv
    | _ => rfl

theorem source_eq_ok_iff {op : Opcode} :
    m.source op s = .ok v ↔ m.value s = .ok v ∧ v ≠ .uninit :=
  refused_eq_ok_iff

theorem copied_eq_ok_iff : m.copied s = .ok v ↔ m.value s = .ok v ∧ v ≠ .uninit :=
  refused_eq_ok_iff

theorem source_eq_error_iff {op : Opcode} :
    m.source op s = .error f ↔ m.SourceFault op s f := by
  unfold source
  rw [Except.bind_eq_error]
  constructor
  · rintro (h | ⟨x, hx, h⟩)
    · cases s with
      | const v => cases h
      | var v => exact .lacks (Memory.load_eq_error_iff.1 h)
    · cases x <;> cases h
      exact .unassigned hx
  · rintro (h | h)
    · exact .inl (Memory.load_eq_error_iff.2 h)
    · exact .inr ⟨_, h, rfl⟩

theorem copied_of_uninit (h : m.value s = .ok .uninit) : m.copied s = .error (.unassigned s) := by
  rw [copied, h]
  rfl

/-! ## Commands that compute a value -/

variable [Reader ρ] [Writer σ] {p : Program} {line : Line} {dst : VarRef} {r : Except Fault Value}

theorem step_cases_of_computed (hl : p.line? m.pc = some line)
    (hc : m.computed line.command = some (dst, r)) :
    (∃ f, r = .error f ∧ m.step p = .failed f m) ∨
      (∃ v f, r = .ok v ∧ m.memory.store dst v = .error f ∧ m.step p = .failed f m) ∨
      ∃ v memory, r = .ok v ∧ m.memory.store dst v = .ok memory ∧
        m.step p = .running { m with memory, pc := m.pc + 1, completed := m.completed + 1 } := by
  cases r with
  | error f => exact .inl ⟨f, rfl, step_of_rule hl (.notComputed hc)⟩
  | ok v =>
    cases hs : m.memory.store dst v with
    | error f => exact .inr (.inl ⟨v, f, rfl, hs, step_of_rule hl (.notAssigned hc hs)⟩)
    | ok memory => exact .inr (.inr ⟨v, memory, rfl, hs, step_of_rule hl (.assign hc hs)⟩)

theorem step_eq_running_iff (hl : p.line? m.pc = some line)
    (hc : m.computed line.command = some (dst, r)) :
    m.step p = .running m' ↔ ∃ v memory, r = .ok v ∧ m.memory.store dst v = .ok memory ∧
      m' = { m with memory, pc := m.pc + 1, completed := m.completed + 1 } := by
  constructor
  · intro h
    obtain ⟨f, -, hs⟩ | ⟨v, f, -, -, hs⟩ | ⟨v, memory, hr, hstore, hs⟩ :=
      step_cases_of_computed hl hc
    · cases hs.symm.trans h
    · cases hs.symm.trans h
    · cases hs.symm.trans h
      exact ⟨v, memory, hr, hstore, rfl⟩
  · rintro ⟨v, memory, rfl, hstore, rfl⟩
    exact step_of_rule hl (.assign hc hstore)

/-- A command that computes a value fails for want of the value, or else for its destination. -/
theorem step_eq_failed_iff (hl : p.line? m.pc = some line)
    (hc : m.computed line.command = some (dst, r)) :
    m.step p = .failed f m' ↔
      m' = m ∧ (r = .error f ∨ (∃ v, r = .ok v) ∧ m.memory.Lacks dst f) := by
  constructor
  · intro h
    obtain ⟨g, hr, hs⟩ | ⟨v, g, hr, hstore, hs⟩ | ⟨v, memory, -, -, hs⟩ :=
      step_cases_of_computed hl hc
    · cases hs.symm.trans h
      exact ⟨rfl, .inl hr⟩
    · cases hs.symm.trans h
      exact ⟨rfl, .inr ⟨⟨v, hr⟩, Memory.store_eq_error_iff.1 hstore⟩⟩
    · cases hs.symm.trans h
  · rintro ⟨rfl, rfl | ⟨⟨v, rfl⟩, hlacks⟩⟩
    · exact step_of_rule hl (.notComputed hc)
    · exact step_of_rule hl (.notAssigned hc (Memory.store_eq_error_iff.2 hlacks))

end Machine

end Ippcode
