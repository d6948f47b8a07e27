import Ippcode.Proofs.Memory
import Ippcode.Proofs.Steps

/-! # Calls and operands come back

A step leaves a stack alone, puts one entry on it or takes one from it. So what lies below an entry
stays as long as the entry does: a return leads behind the call that it matches and leaves the call
stack that there was before the call, and a `POPS` gets the value of the `PUSHS` that it matches.
-/
namespace Ippcode

namespace Stack

variable {α : Type} {takes : Prop} {s s' t : Stack α}

/-- What a step may do to a stack. It takes an entry only if `takes` holds. -/
inductive Moves (takes : Prop) (s : Stack α) : Stack α → Prop
  | kept : Moves takes s s
  | put (x : α) : Moves takes s (x :: s)
  | taken {x : α} {rest : Stack α} (h : takes) (hs : s = x :: rest) : Moves takes s rest

theorem Moves.length_cases (h : Moves takes s s') :
    s.length ≤ s'.length ∨ takes ∧ s.length = s'.length + 1 := by
  cases h with
  | kept => exact .inl (Nat.le_refl _)
  | put x => exact .inl (Nat.le_succ _)
  | taken h hs => exact .inr ⟨h, by rw [hs, List.length_cons]⟩

/-- The lower part of a stack stays as long as the stack is not lower. -/
theorem Moves.suffix (h : Moves takes s s') (ht : t <:+ s) (hlen : t.length ≤ s'.length) :
    t <:+ s' := by
  cases h with
  | kept => exact ht
  | put x => exact ht.trans (List.suffix_cons x s)
  | taken _ hs =>
    rw [hs] at ht
    obtain heq | ht := List.suffix_cons_iff.1 ht
    · have hlen' : t.length = s'.length + 1 := by rw [heq, List.length_cons]
      omega
    · exact ht

end Stack

open Stack (Moves)

namespace Command

variable {c : Command}

theorem eq_popS (h : c.opcode = .popS) : ∃ dst, c = .popS dst := by
  have hfit := c.allFit_args
  rw [h] at hfit
  obtain ⟨a, as, ha, has, hargs⟩ := Instruction.allFit_cons.1 hfit
  obtain ⟨dst, rfl⟩ := Argument.fits_var.1 ha
  obtain rfl := Instruction.allFit_nil.1 has
  exact ⟨dst, eq_of_parts h hargs⟩

end Command

namespace Machine

variable {ρ σ : Type} [Reader ρ] [Writer σ] {p : Program} {m m' : Machine ρ σ} {n : Nat}

/-! ## One step -/

section Rules

variable {order : Int64} {c : Command} {o : Outcome ρ σ}

theorem Rule.moves_calls (h : Rule p order m c o) :
    Moves (c.opcode = .ret) m.calls o.progress.machine.calls := by
  cases h with
  | call => exact .put (m.pc + 1)
  | ret h => exact .taken rfl h
  | _ => exact .kept

/-- A `POPS` takes its operand also if it cannot assign it. -/
theorem Rule.moves_operands (h : Rule p order m c o) :
    Moves (c.opcode = .popS) m.operands o.progress.machine.operands := by
  cases h with
  | @pushS _ v => exact .put v
  | popS h | popLost h => exact .taken rfl h
  | _ => exact .kept

end Rules

/-- What every rule does to a stack every step does. -/
theorem moves_of_step {α : Type} {op : Opcode} (stack : Machine ρ σ → Stack α)
    (hrule : ∀ (a : Machine ρ σ) (line : Line) (o : Outcome ρ σ),
      Rule p line.order a line.command o →
        Moves (line.command.opcode = op) (stack a) (stack o.progress.machine))
    (a : Machine ρ σ) :
    Moves (p.opcode? a.pc = some op) (stack a) (stack (a.step p).machine) := by
  cases hl : p.line? a.pc with
  | none =>
    rw [step_of_end hl]
    exact .kept
  | some line =>
    obtain ⟨o, hr, ho⟩ := rule_of_line hl
    rw [ho, Program.opcode?_of_line hl, Option.some.injEq]
    exact hrule a line o hr

theorem calls_of_step (a : Machine ρ σ) :
    Moves (p.opcode? a.pc = some .ret) a.calls (a.step p).machine.calls :=
  moves_of_step (fun a => a.calls) (fun _ _ _ h => h.moves_calls) a

theorem operands_of_step (a : Machine ρ σ) :
    Moves (p.opcode? a.pc = some .popS) a.operands (a.step p).machine.operands :=
  moves_of_step (fun a => a.operands) (fun _ _ _ h => h.moves_operands) a

theorem calls_of_call {target : String} (hc : m.command? p = some (.call target))
    (h : m.step p = .running m') : m'.calls = (m.pc + 1) :: m.calls := by
  obtain ⟨line, hl, hline⟩ := exists_line_of_command? hc
  obtain ⟨o, hr, ho⟩ := rule_of_line hl
  rw [hline] at hr
  rw [ho] at h
  cases hr with
  | call => cases h; rfl
  | notCalled => cases h
  | assign hcomp | notComputed hcomp | notAssigned hcomp => cases hcomp

theorem step_of_ret {k : Nat} {calls : Stack Nat} (hc : m.command? p = some .ret)
    (h : m.calls = k :: calls) : (m.step p).machine.pc = k := by
  rw [step_of_command? hc fun _ => .ret h]
  rfl

theorem operands_of_pushS {src : Symbol} {v : Value} (hc : m.command? p = some (.pushS src))
    (hv : m.copied src = .ok v) : (m.step p).machine.operands = v :: m.operands := by
  rw [step_of_command? hc fun _ => .pushS hv]
  rfl

/-- Whether a `POPS` goes through depends on whether the top of the stack can be assigned. -/
theorem store_of_popS {dst : VarRef} {v : Value} {operands : Stack Value}
    (hc : m.command? p = some (.popS dst)) (h : m.operands = v :: operands) :
    (∀ m', m.step p = .running m' → m.memory.store dst v = .ok m'.memory) ∧
      ∀ f m', m.step p = .failed f m' → m.memory.store dst v = .error f := by
  cases hs : m.memory.store dst v with
  | ok memory =>
    rw [step_of_command? hc fun _ => .popS h hs]
    constructor
    · intro m' hm
      cases hm
      rfl
    · intro f m' hm
      cases hm
  | error f =>
    rw [step_of_command? hc fun _ => .popLost h hs]
    constructor
    · intro m' hm
      cases hm
    · intro f' m' hm
      cases hm
      rfl

/-! ## From an entry to its match -/

/-- When an entry is taken the stack is what it was when the entry was put there. -/
theorem Matched.stack_eq {α : Type} {op : Opcode} {stack : Machine ρ σ → Stack α} {x : α}
    (h : Matched p op (fun a => (stack a).length) m n)
    (hmoves : ∀ a, Moves (p.opcode? a.pc = some op) (stack a) (stack (a.step p).machine))
    (hput : stack (m.step p).machine = x :: stack m) :
    stack (m.after p n) = x :: stack m ∧ stack (m.after p (n + 1)) = stack m := by
  have hdeep : ∀ i, 0 < i → i ≤ n → (stack m).length < (stack (m.after p i)).length := by
    intro i hpos hi
    refine h.lt_depth (fun a => (hmoves a).length_cases) ?_ hpos hi
    rw [hput]
    exact Nat.lt_succ_self _
  -- the entry and all below it are at the bottom of the stack until the match
  have hbottom : ∀ i, 0 < i → i ≤ n → x :: stack m <:+ stack (m.after p i) := by
    intro i hpos hi
    induction i with
    | zero => exact absurd hpos (Nat.lt_irrefl 0)
    | succ i ih =>
      rcases Nat.eq_zero_or_pos i with rfl | hpos'
      · have hone : stack (m.after p (0 + 1)) = x :: stack m := hput
        exact hone ▸ List.suffix_rfl
      · exact (hmoves _).suffix (ih hpos' (Nat.le_of_succ_le hi)) (hdeep _ hpos hi)
  have hlast := hdeep n h.later (Nat.le_refl n)
  have hback : (stack ((m.after p n).step p).machine).length = (stack m).length := h.closes.2
  have htop : stack (m.after p n) = x :: stack m := by
    obtain hle | ⟨_, hlen⟩ := (hmoves (m.after p n)).length_cases
    · omega
    · refine ((hbottom n h.later (Nat.le_refl n)).eq_of_length ?_).symm
      rw [hlen, hback, List.length_cons]
  refine ⟨htop, ?_⟩
  have hsuffix : stack m <:+ stack ((m.after p n).step p).machine := by
    refine (hmoves _).suffix ?_ (Nat.le_of_eq hback.symm)
    rw [htop]
    exact List.suffix_cons x _
  exact (hsuffix.eq_of_length hback.symm).symm

/-- A return leads behind the call that it matches and leaves the call stack as it was before the
call. A `POPS` assigns the value of the `PUSHS` that it matches, or loses it if it cannot assign,
and leaves the operand stack as it was before. What is carried out in between is of no account. -/
theorem calls_and_operands_match (p : Program) (m : Machine ρ σ) (n : Nat) :
    (∀ target m', m.command? p = some (.call target) → m.step p = .running m' →
      Matched p .ret (fun a => a.calls.length) m n →
        (m.after p (n + 1)).pc = m.pc + 1 ∧ (m.after p (n + 1)).calls = m.calls) ∧
    ∀ src v, m.command? p = some (.pushS src) → m.copied src = .ok v →
      Matched p .popS (fun a => a.operands.length) m n →
        (m.after p (n + 1)).operands = m.operands ∧
          ∃ dst, (m.after p n).command? p = some (.popS dst) ∧
            (∀ m', (m.after p n).step p = .running m' →
              (m.after p n).memory.store dst v = .ok m'.memory ∧ m'.memory.load dst = .ok v) ∧
            ∀ f m', (m.after p n).step p = .failed f m' →
              (m.after p n).memory.store dst v = .error f := by
  constructor
  · intro target m' hc hs h
    have hput : (m.step p).machine.calls = (m.pc + 1) :: m.calls := by
      rw [hs]
      exact calls_of_call hc hs
    obtain ⟨htop, hback⟩ := h.stack_eq calls_of_step hput
    obtain ⟨c, hlast, hop⟩ := exists_command_of_opcode? h.closes.1
    rw [Command.eq_of_opcode (d := .ret) hop rfl] at hlast
    exact ⟨step_of_ret hlast htop, hback⟩
  · intro src v hc hv h
    obtain ⟨htop, hback⟩ := h.stack_eq operands_of_step (operands_of_pushS hc hv)
    obtain ⟨c, hlast, hop⟩ := exists_command_of_opcode? h.closes.1
    obtain ⟨dst, rfl⟩ := Command.eq_popS hop
    obtain ⟨hrunning, hfailed⟩ := store_of_popS hlast htop
    refine ⟨hback, dst, hlast, ?_, hfailed⟩
    intro m' hm'
    have hstore := hrunning m' hm'
    exact ⟨hstore, Memory.load_of_store hstore⟩

/-- An operand that is put before a call is taken behind it, though the called function calls
another one and uses both stacks. -/
theorem calls_and_operands_match_nested :
    ∃ (p : Program) (m m' : Machine), Program.ofInstructions
        [⟨1, .defVar, [.symbol (.var ⟨.gf, "x"⟩)]⟩, ⟨2, .pushS, [.symbol (.const (.bool true))]⟩,
          ⟨3, .call, [.label "f"]⟩, ⟨4, .popS, [.symbol (.var ⟨.gf, "x"⟩)]⟩,
          ⟨5, .exit, [.symbol (.const (.int 0))]⟩, ⟨6, .label, [.label "f"]⟩,
          ⟨7, .pushS, [.symbol (.const (.int 2))]⟩, ⟨8, .call, [.label "g"]⟩,
          ⟨9, .popS, [.symbol (.var ⟨.gf, "x"⟩)]⟩, ⟨10, .ret, []⟩,
          ⟨11, .label, [.label "g"]⟩, ⟨12, .ret, []⟩] = .ok p ∧
      Reachable p m ∧ m.pc = 1 ∧
      Matched p .ret (fun a => a.calls.length) (m.after p 1) 7 ∧
      ((m.after p 1).after p 8).pc = 3 ∧ ((m.after p 1).after p 8).calls = [] ∧
      Matched p .popS (fun a => a.operands.length) m 9 ∧ m.run p 10 = .running m' ∧
      m'.operands = [] ∧ m'.memory.load ⟨.gf, "x"⟩ = .ok (.bool true) := by
  let p : Program :=
    ⟨#[⟨1, .defVar ⟨.gf, "x"⟩⟩, ⟨2, .pushS (.const (.bool true))⟩, ⟨3, .call "f"⟩,
      ⟨4, .popS ⟨.gf, "x"⟩⟩, ⟨5, .exit (.const (.int 0))⟩, ⟨6, .label "f"⟩,
      ⟨7, .pushS (.const (.int 2))⟩, ⟨8, .call "g"⟩, ⟨9, .popS ⟨.gf, "x"⟩⟩, ⟨10, .ret⟩,
      ⟨11, .label "g"⟩, ⟨12, .ret⟩], [("g", 10), ("f", 5)]⟩
  have hp : Program.ofInstructions _ = .ok p :=
    Program.ofInstructions_of_perm p.lines.toList (.refl _) (by decide) (by decide) rfl
  let m : Machine := (start ⟨[]⟩ (.empty none) (.empty none)).after p 1
  have hm : Reachable p m := (Reachable.start _ _ _).after 1
  have hret : Matched p .ret (fun a => a.calls.length) (m.after p 1) 7 := by
    refine ⟨by decide, by decide, ?_⟩
    have hfirst : ∀ i < 7, 0 < i → ¬ Closes p .ret (fun a => a.calls.length) (m.after p 1) i := by
      decide
    exact fun i hpos hi => hfirst i hi hpos
  have hpop : Matched p .popS (fun a => a.operands.length) m 9 := by
    refine ⟨by decide, by decide, ?_⟩
    have hfirst : ∀ i < 9, 0 < i → ¬ Closes p .popS (fun a => a.operands.length) m i := by
      decide
    exact fun i hpos hi => hfirst i hi hpos
  obtain ⟨hcall, -⟩ := calls_and_operands_match p (m.after p 1) 7
  obtain ⟨hpc, hcalls⟩ := hcall "f" _ rfl rfl hret
  obtain ⟨-, hpush⟩ := calls_and_operands_match p m 9
  obtain ⟨hoperands, dst, hdst, hstored, -⟩ := hpush (.const (.bool true)) (.bool true) rfl rfl hpop
  have hlast : (m.after p 9).command? p = some (.popS ⟨.gf, "x"⟩) := by decide
  cases hlast.symm.trans hdst
  let m' : Machine :=
    { start ⟨[]⟩ (.empty none) (.empty none) with
      memory := ⟨⟨[("x", .bool true)], by decide⟩, none, []⟩, pc := 4, completed := 11 }
  have hrun : m.run p 10 = .running m' := rfl
  obtain ⟨-, hload⟩ := hstored m' (step_of_run hrun)
  rw [after_of_run hrun] at hoperands
  exact ⟨p, m, m', hp, hm, rfl, hret, hpc, hcalls, hpop, hrun, hoperands, hload⟩

end Machine

end Ippcode
