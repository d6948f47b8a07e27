import Ippcode.Proofs.ControlFlow
import Ippcode.Proofs.Operations

/-! # Unassigned variables

Only `TYPE` goes on when it reads a variable that is declared but unassigned. Whatever copies or
prints finds the value missing. All else has operands of a wrong type: this is found before the
values of the others are looked at, whether the operand is refused when it is read, when operands
are compared, or because it is not a literal.
-/
namespace Ippcode

/-- What kind of fault it is to give an unassigned variable to an opcode. -/
def Opcode.unassignedKind : Opcode → FaultKind
  | .move | .pushS | .write | .dPrint => .missingValue
  | _ => .operandType

theorem Operator.assigned_of_jumpEquals {op : Opcode} {a b : Value} {r : Bool}
    (h : jumpEquals op a b = .ok r) : a ≠ .uninit ∧ b ≠ .uninit := by
  obtain ⟨_, hboth, _⟩ := Except.bind_eq_ok.1 h
  unfold bothAssigned at hboth
  constructor
  · rintro rfl
    cases hboth
  · rintro rfl
    rw [show Value.uninit.isUninit = true from rfl, Bool.or_true] at hboth
    cases hboth

namespace Machine

variable {ρ σ : Type} {p : Program} {m m' : Machine ρ σ} {c : Command} {s : Symbol} {v : Value}
  {f : Fault} {dst : VarRef}

/-- A command whose symbols can all be read, but one of which is unassigned. -/
structure Deprived (m : Machine ρ σ) (c : Command) : Prop where
  resolved : ∀ x ∈ c.reads, ∃ v, m.value x = .ok v
  unassigned : ∃ x ∈ c.reads, m.value x = .ok .uninit

theorem assigned_of_copied (h : m.copied s = .ok v) : ∀ x ∈ [s], m.Assigned x := by
  intro x hx
  rw [List.mem_singleton.1 hx]
  exact ⟨v, copied_eq_ok_iff.1 h⟩

theorem assigned_of_jumpTest {op : Opcode} {target : String} {a b : Symbol} {r : Nat × Bool}
    (h : m.jumpTest p op target a b = .ok r) : ∀ x ∈ [a, b], m.Assigned x := by
  obtain ⟨_, _, h⟩ := Except.bind_eq_ok.1 h
  obtain ⟨v, hv, h⟩ := Except.bind_eq_ok.1 h
  obtain ⟨w, hw, h⟩ := Except.bind_eq_ok.1 h
  obtain ⟨_, h, _⟩ := Except.bind_eq_ok.1 h
  obtain ⟨hv', hw'⟩ := Operator.assigned_of_jumpEquals h
  intro x hx
  obtain rfl | rfl : x = a ∨ x = b := by simpa using hx
  · exact ⟨v, hv, hv'⟩
  · exact ⟨w, hw, hw'⟩

theorem assigned_of_operator (hop : c.opcode ∈ Opcode.operators)
    (h : m.computed c = some (dst, .ok v)) : ∀ x ∈ c.reads, m.Assigned x := by
  obtain ⟨_, _, _, hc, hok, _⟩ := computed_operator_iff m hop
  cases hc.symm.trans h
  obtain ⟨vs, hvs, _⟩ := (hok v).1 rfl
  exact hvs.assigned

theorem assigned_of_computed (hc : c.opcode ≠ .type)
    (h : m.computed c = some (dst, .ok v)) : ∀ x ∈ c.reads, m.Assigned x := by
  cases c with
  | move dst' src =>
    simp only [computed, Option.some.injEq, Prod.mk.injEq] at h
    exact assigned_of_copied h.2
  | unary op => exact assigned_of_operator (Opcode.mem_operators_unary op) h
  | binary op => exact assigned_of_operator (Opcode.mem_operators_binary op) h
  | setChar =>
    have hop : Opcode.setChar ∈ Opcode.operators := by decide
    exact assigned_of_operator hop h
  | type => exact absurd rfl hc
  | _ => cases h

/-! ## Faults -/

theorem Deprived.not_assigned (h : m.Deprived c) : ¬ ∀ x ∈ c.reads, m.Assigned x := by
  intro hall
  obtain ⟨x, hx, hv⟩ := h.unassigned
  obtain ⟨v, hv', hne⟩ := hall x hx
  cases hv.symm.trans hv'
  exact hne rfl

theorem Deprived.value_eq (h : m.Deprived c) (hc : c.reads = [s]) : m.value s = .ok .uninit := by
  obtain ⟨x, hx, hv⟩ := h.unassigned
  rw [hc, List.mem_singleton] at hx
  exact hx ▸ hv

theorem Deprived.copied_eq (h : m.Deprived c) (hc : c.reads = [s]) (hf : m.copied s = .error f) :
    f = .unassigned s := by
  rw [copied_of_uninit (h.value_eq hc)] at hf
  cases hf
  rfl

theorem Deprived.kind_of_operator (h : m.Deprived c) (hop : c.opcode ∈ Opcode.operators)
    (hf : m.computed c = some (dst, .error f)) : f.kind = .operandType := by
  obtain ⟨_, _, _, hc, _, herror⟩ := computed_operator_iff m hop
  cases hc.symm.trans hf
  obtain ⟨before, s, after, hs, _, hfault⟩ | ⟨vs, hvs, _⟩ := (herror f).1 rfl
  · cases hfault with
    | lacks hlacks =>
      obtain ⟨v, hv⟩ := h.resolved _ (hs ▸ List.mem_append_cons_self)
      cases hv.symm.trans (Memory.load_eq_error_iff.2 hlacks)
    | unassigned => rfl
  · exact absurd hvs.assigned h.not_assigned

theorem Deprived.kind_of_computed (hc : c.opcode ≠ .type) (h : m.Deprived c)
    (hf : m.computed c = some (dst, .error f)) : f.kind = c.opcode.unassignedKind := by
  have hkind : ∀ op ∈ Opcode.operators, op.unassignedKind = .operandType := by decide
  cases c with
  | move dst' src =>
    simp only [computed, Option.some.injEq, Prod.mk.injEq] at hf
    rw [h.copied_eq rfl hf.2]
    rfl
  | unary op =>
    have hop := Opcode.mem_operators_unary op
    exact (h.kind_of_operator hop hf).trans (hkind _ hop).symm
  | binary op =>
    have hop := Opcode.mem_operators_binary op
    exact (h.kind_of_operator hop hf).trans (hkind _ hop).symm
  | setChar =>
    have hop : Opcode.setChar ∈ Opcode.operators := by decide
    exact (h.kind_of_operator hop hf).trans (hkind _ hop).symm
  | type => exact absurd rfl hc
  | _ => cases hf

theorem Deprived.kind_of_status (h : m.Deprived (.exit s)) (hf : m.status s = .error f) :
    f.kind = .operandType := by
  have hs : m.value s = .ok .uninit := h.value_eq rfl
  rw [status, hs] at hf
  cases s <;> cases hf <;> rfl

theorem Deprived.kind_of_jumpTest {equal : Bool} {op : Opcode} {target : String} {a b : Symbol}
    {k : Nat} (h : m.Deprived (.jumpIf equal target a b)) (hk : p.label target = .ok k)
    (hf : m.jumpTest p op target a b = .error f) : f.kind = .operandType := by
  obtain ⟨v, hv⟩ := h.resolved a (by simp [Command.reads])
  obtain ⟨w, hw⟩ := h.resolved b (by simp [Command.reads])
  unfold jumpTest at hf
  simp only [hk, hv, hw, Except.bind_eq_error, Except.ok.injEq, reduceCtorEq, false_or,
    exists_eq_left', pure, Except.pure, and_false, exists_false, or_false] at hf
  exact Operator.kind_of_jumpEquals hf

variable [Reader ρ] [Writer σ] {o : Outcome ρ σ} {i : Instruction}

/-! ## Steps -/

/-- What does not fail has read assigned symbols only. -/
theorem assigned_of_rule {order : Int64} (hc : c.opcode ≠ .type) (h : Rule p order m c o)
    (ho : ∀ f n, o ≠ .fault f n) : ∀ x ∈ c.reads, m.Assigned x := by
  cases h with
  | assign h _ => exact assigned_of_computed hc h
  | pushS h => exact assigned_of_copied h
  | write h _ => exact assigned_of_copied h
  | dPrint h _ => exact assigned_of_copied h
  | jumpIf h => exact assigned_of_jumpTest h
  | stay h => exact assigned_of_jumpTest h
  | exit h =>
    obtain ⟨code, rfl, _⟩ := status_eq_ok_iff.1 h
    intro x hx
    rw [List.mem_singleton.1 hx]
    exact ⟨.int code, rfl, nofun⟩
  | createFrame | pushFrame | popFrame | defVar | call | ret | popS | read | label | jump | brk =>
    exact List.forall_mem_nil _
  | _ => exact absurd rfl (ho _ _)

theorem Deprived.kind_of_fault {order : Int64} (hc : c.opcode ≠ .type) (h : m.Deprived c)
    (ht : ∀ name, .label name ∈ c.args → ∃ k, p.label name = .ok k)
    (hr : Rule p order m c (.fault f m')) : m' = m ∧ f.kind = c.opcode.unassignedKind := by
  cases hr with
  | notComputed hf => exact ⟨rfl, h.kind_of_computed hc hf⟩
  | notAssigned hok => exact absurd (assigned_of_computed hc hok) h.not_assigned
  | nothingToPush hf | nothingToWrite hf | nothingToPrint hf =>
    rw [h.copied_eq rfl hf]
    exact ⟨rfl, rfl⟩
  | notWritten hok | notPrinted hok => exact absurd (assigned_of_copied hok) h.not_assigned
  | @notTested equal target a b _ hf =>
    obtain ⟨k, hk⟩ := ht target (by simp [Command.args])
    refine ⟨rfl, (h.kind_of_jumpTest hk hf).trans ?_⟩
    cases equal <;> rfl
  | noStatus hf => exact ⟨rfl, h.kind_of_status hf⟩
  -- all other commands read nothing, so that nothing they read is unassigned
  | _ => exact absurd (List.forall_mem_nil _) h.not_assigned

/-- `TYPE` alone goes on when it reads an unassigned variable. Any other instruction that succeeds
has read assigned symbols only. If all that it reads can be read and its label is defined, but
something is unassigned, it fails without effect: for what copies or prints the value is missing, for
all else it is of a wrong type. -/
theorem unassigned_only_typed (p : Program) (m : Machine ρ σ) {i : Instruction}
    (hi : p.instruction? m.pc = some i) :
    (i.opcode ≠ .type → (∀ f m', m.step p ≠ .failed f m') → ∀ x ∈ i.reads, m.Assigned x) ∧
      (i.opcode ≠ .type → (∀ x ∈ i.reads, ∃ v, m.value x = .ok v) →
        (∀ name, .label name ∈ i.args → ∃ k, p.label name = .ok k) →
        (∃ x ∈ i.reads, m.value x = .ok .uninit) →
        ∃ f, m.step p = .failed f m ∧ f.kind = i.opcode.unassignedKind) ∧
      ∀ dst src v, i.opcode = .type → i.args = [.symbol (.var dst), .symbol src] →
        m.value src = .ok v → m.memory.Has dst →
        ∃ memory, m.memory.store dst (.str v.typeName) = .ok memory ∧
          m.step p = .running { m with memory, pc := m.pc + 1, completed := m.completed + 1 } := by
  obtain ⟨line, hl, rfl⟩ := Program.line?_of_instruction? hi
  obtain ⟨o, hr, hstep⟩ := rule_of_line hl
  have hopcode : line.instruction.opcode = line.command.opcode := rfl
  have hargs : line.instruction.args = line.command.args := rfl
  rw [Line.reads_instruction, hopcode, hargs]
  refine ⟨?_, ?_, ?_⟩
  · intro hc hok
    refine assigned_of_rule hc hr ?_
    rintro f n rfl
    exact hok f n hstep
  · intro hc hall ht hex
    have hd : m.Deprived line.command := ⟨hall, hex⟩
    cases o with
    | fault f m' =>
      obtain ⟨rfl, hkind⟩ := hd.kind_of_fault hc ht hr
      exact ⟨f, hstep, hkind⟩
    | next | jump | exit =>
      refine absurd (assigned_of_rule hc hr ?_) hd.not_assigned
      intro f n h
      cases h
  · intro dst src v hc hshape hv hdst
    have hcommand : line.command = .type dst src := Command.eq_of_parts hc hshape
    have hcomputed : m.computed line.command = some (dst, .ok (.str v.typeName)) := by
      rw [hcommand, computed, hv]
      rfl
    obtain ⟨memory, hs⟩ := Memory.exists_store_iff.2 hdst
    exact ⟨memory, hs, (step_eq_running_iff hl hcomputed).2 ⟨_, memory, rfl, hs, rfl⟩⟩

/-- Dividing an unassigned variable by zero. -/
theorem unassigned_only_typed_divided :
    ∃ (p : Program) (m : Machine) (f : Fault),
      Program.ofInstructions [⟨1, .defVar, [.symbol (.var ⟨.gf, "x"⟩)]⟩,
        ⟨2, .idiv, [.symbol (.var ⟨.gf, "x"⟩), .symbol (.var ⟨.gf, "x"⟩),
          .symbol (.const (.int 0))]⟩] = .ok p ∧
      (start ⟨[]⟩ (.empty none) (.empty none) : Machine).run p 1 = .running m ∧
      m.step p = .failed f m ∧ f.kind = .operandType := by
  let x : VarRef := ⟨.gf, "x"⟩
  let p : Program := ⟨#[⟨1, .defVar x⟩, ⟨2, .binary .idiv x (.var x) (.const (.int 0))⟩], []⟩
  have hp : Program.ofInstructions _ = .ok p :=
    Program.ofInstructions_of_perm p.lines.toList (.refl _) (by decide) (by decide) rfl
  let m : Machine := ((start ⟨[]⟩ (.empty none) (.empty none) : Machine).run p 1).machine
  have hi : p.instruction? m.pc =
      some ⟨2, .idiv, [.symbol (.var x), .symbol (.var x), .symbol (.const (.int 0))]⟩ := rfl
  have hx : m.value (.var x) = .ok .uninit := rfl
  have hresolved : ∀ s ∈ [Symbol.var x, .const (.int 0)], ∃ v, m.value s = .ok v :=
    List.forall_mem_cons.2 ⟨⟨_, hx⟩, List.forall_mem_singleton.2 ⟨_, rfl⟩⟩
  obtain ⟨_, hfails, _⟩ := unassigned_only_typed p m hi
  obtain ⟨f, hstep, hkind⟩ :=
    hfails (by decide) hresolved (by simp) ⟨.var x, List.mem_cons_self, hx⟩
  exact ⟨p, m, f, hp, rfl, hstep, hkind⟩

end Machine

end Ippcode
