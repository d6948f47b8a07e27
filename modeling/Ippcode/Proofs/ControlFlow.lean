import Ippcode.Proofs.Acceptance
import Ippcode.Proofs.Reachable

/-! # Control flow

The position of a running program moves from a line to the next one, to a label that the line names,
or back behind a call. So it never leaves the program, the call stack holds positions behind calls
only, and a line behind one that never goes on is reached only if it is a label.
-/
namespace Ippcode

def Command.target? : Command → Option String
  | call target | jump target | jumpIf _ target .. => some target
  | _ => none

namespace Program

def opcode? (p : Program) (k : Nat) : Option Opcode := (p.line? k).map (·.command.opcode)

/-- A call leaves this position to be returned to. -/
def IsReturn (p : Program) (r : Nat) : Prop :=
  1 ≤ r ∧ r ≤ p.size ∧ p.opcode? (r - 1) = some .call

def barriers : List Opcode := [.jump, .ret, .exit]

/-- Nothing leads to this position: the line before it does not go on, and there is no label. -/
def IsBarred (p : Program) (i : Nat) : Prop :=
  1 ≤ i ∧ (∃ op, p.opcode? i = some op ∧ op ≠ .label) ∧
    ∃ op ∈ barriers, p.opcode? (i - 1) = some op

theorem opcode?_of_line {p : Program} {k : Nat} {line : Line} (h : p.line? k = some line) :
    p.opcode? k = some line.command.opcode := by
  rw [opcode?, h, Option.map_some]

end Program

namespace Machine

variable {ρ σ : Type} {p : Program} {m m' : Machine ρ σ}

inductive Move (p : Program) (m : Machine ρ σ) (c : Command) : Nat → Prop
  | onward (h : c.opcode ∉ [.jump, .call, .ret, .exit]) : Move p m c (m.pc + 1)
  | toLabel {name : String} {k : Nat} {line : Line} (ht : c.target? = some name)
    (hk : p.line? k = some line) (hl : line.command = .label name)
    (honly : ∀ j other, p.line? j = some other → other.command = .label name → j = k) :
    Move p m c k
  | back {k : Nat} {calls : Stack Nat} (h : c = .ret) (hk : m.calls = k :: calls) : Move p m c k

inductive Leaves (p : Program) : Progress ρ σ → Prop
  | atEnd {m : Machine ρ σ} (h : m.pc = p.size) : Leaves p (.ended 0 m)
  | byExit {m : Machine ρ σ} {line : Line} {code : Int64} (hl : p.line? m.pc = some line)
    (hc : line.command = .exit (.const (.int code))) (hcode : 0 ≤ code.toInt ∧ code.toInt ≤ 9) :
    Leaves p (.ended code.toInt.toNat m)
  | byFault {m : Machine ρ σ} {line : Line} {f : Fault} (hl : p.line? m.pc = some line) :
    Leaves p (.failed f m)

/-- What holds of the position and the call stack at every moment. -/
structure Controlled (p : Program) (m : Machine ρ σ) : Prop where
  pc_le : m.pc ≤ p.size
  isReturn : ∀ r ∈ m.calls, p.IsReturn r
  not_isBarred : ¬ p.IsBarred m.pc

theorem Controlled.congr (h : Controlled p m) (hpc : m'.pc = m.pc) (hcalls : m'.calls = m.calls) :
    Controlled p m' :=
  ⟨hpc ▸ h.pc_le, hcalls ▸ h.isReturn, hpc ▸ h.not_isBarred⟩

theorem controlled_start (input : ρ) (stdout stderr : σ) :
    Controlled p (start input stdout stderr) := by
  refine ⟨Nat.zero_le _, ?_, ?_⟩
  · intro r hr
    cases hr
  · rintro ⟨hpos, _⟩
    exact Nat.not_succ_le_zero _ hpos

theorem status_eq_ok_iff {s : Symbol} {n : Nat} :
    m.status s = .ok n ↔ ∃ code : Int64, s = .const (.int code) ∧
      (0 ≤ code.toInt ∧ code.toInt ≤ 9) ∧ n = code.toInt.toNat := by
  constructor
  · intro h
    obtain ⟨v, hv, h⟩ := Except.bind_eq_ok.1 h
    cases s with
    | var x => cases v <;> cases h
    | const x =>
      cases hv
      cases v with
      | int code =>
        change (if _ then _ else _) = _ at h
        split at h
        next hcode =>
          cases h
          exact ⟨code, rfl, hcode, rfl⟩
        next => cases h
      | _ => cases h
  · rintro ⟨code, rfl, hcode, rfl⟩
    change (if _ then _ else _) = _
    rw [if_pos hcode]

variable [Reader ρ] [Writer σ]

/-! ## One line -/

theorem Rule.control_of_next {order : Int64} {c : Command} (h : Rule p order m c (.next m')) :
    m'.pc = m.pc ∧ m'.calls = m.calls ∧ c.opcode ∉ [.jump, .call, .ret, .exit] := by
  cases h with
  | assign hc hs =>
    exact ⟨rfl, rfl, not_mem_of_computed hc (by decide)⟩
  | @stay equal => cases equal <;> exact ⟨rfl, rfl, by simp [Command.opcode]⟩
  | _ => exact ⟨rfl, rfl, by simp [Command.opcode]⟩

theorem Rule.control_of_jump {order : Int64} {c : Command} {k : Nat}
    (h : Rule p order m c (.jump k m')) :
    (∃ name, c.target? = some name ∧ p.label name = .ok k ∧
        (m'.calls = m.calls ∨ c.opcode = .call ∧ m'.calls = (m.pc + 1) :: m.calls)) ∨
      c = .ret ∧ m.calls = k :: m'.calls := by
  cases h with
  | call h => exact .inl ⟨_, rfl, h, .inr ⟨rfl, rfl⟩⟩
  | ret h => exact .inr ⟨rfl, h⟩
  | jump h => exact .inl ⟨_, rfl, h, .inl rfl⟩
  | jumpIf h =>
    obtain ⟨k', hk, h⟩ := Except.bind_eq_ok.1 h
    obtain ⟨_, _, h⟩ := Except.bind_eq_ok.1 h
    obtain ⟨_, _, h⟩ := Except.bind_eq_ok.1 h
    obtain ⟨_, _, h⟩ := Except.bind_eq_ok.1 h
    cases h
    exact .inl ⟨_, rfl, hk, .inl rfl⟩

theorem Rule.control_of_fault {order : Int64} {c : Command} {f : Fault}
    (h : Rule p order m c (.fault f m')) : m'.pc = m.pc ∧ m'.calls = m.calls := by
  cases h <;> exact ⟨rfl, rfl⟩

/-! ## Every moment -/

variable {is : List Instruction}

theorem Controlled.of_next {line : Line} (hl : p.line? m.pc = some line) (h : Controlled p m)
    (hr : Rule p line.order m line.command (.next m')) :
    Controlled p { m' with pc := m'.pc + 1, completed := m'.completed + 1 } := by
  obtain ⟨hpc, hcalls, hop⟩ := hr.control_of_next
  refine ⟨?_, hcalls ▸ h.isReturn, ?_⟩
  · rw [hpc]
    exact Program.line?_lt hl
  · rintro ⟨_, _, op, hbar, hop'⟩
    have heq : some line.command.opcode = some op := by
      rw [← Program.opcode?_of_line hl, ← hop', hpc, Nat.add_sub_cancel]
    cases heq
    have hsub : Program.barriers ⊆ [.jump, .call, .ret, .exit] := by decide
    exact hop (hsub hbar)

theorem Controlled.of_jump (hp : Program.ofInstructions is = .ok p) {line : Line} {k : Nat}
    (hl : p.line? m.pc = some line) (h : Controlled p m)
    (hr : Rule p line.order m line.command (.jump k m')) :
    Controlled p { m' with pc := k, completed := m'.completed + 1 } := by
  obtain ⟨name, _, hk, hcalls⟩ | ⟨_, hcalls⟩ := hr.control_of_jump
  · obtain ⟨target, hk, hc⟩ := (Program.label_eq_ok_iff hp).1 hk
    refine ⟨Nat.le_of_lt (Program.line?_lt hk), ?_, ?_⟩
    · intro r hr
      obtain hcalls | ⟨hop, hcalls⟩ := hcalls
      · exact h.isReturn r (hcalls ▸ hr)
      · have hr : r ∈ (m.pc + 1) :: m.calls := hcalls ▸ hr
        obtain rfl | hr := List.mem_cons.1 hr
        · refine ⟨Nat.le_add_left .., Program.line?_lt hl, ?_⟩
          rw [Nat.add_sub_cancel, Program.opcode?_of_line hl, hop]
        · exact h.isReturn r hr
    · rintro ⟨_, ⟨op, hop, hne⟩, _⟩
      rw [Program.opcode?_of_line hk, hc] at hop
      cases hop
      exact hne rfl
  · have hk := h.isReturn k (by rw [hcalls]; exact List.mem_cons_self)
    refine ⟨hk.2.1, ?_, ?_⟩
    · intro r hr
      exact h.isReturn r (by rw [hcalls]; exact List.mem_cons_of_mem _ hr)
    · rintro ⟨_, _, op, hbar, hop⟩
      cases hk.2.2.symm.trans hop
      exact absurd hbar (by decide)

theorem Controlled.step (hp : Program.ofInstructions is = .ok p) (h : Controlled p m) :
    Controlled p (m.step p).machine := by
  cases hl : p.line? m.pc with
  | none =>
    rw [step_of_end hl]
    exact h
  | some line =>
    obtain ⟨o, hr, ho⟩ := rule_of_line hl
    rw [ho]
    cases o with
    | next n => exact h.of_next hl hr
    | jump k n => exact h.of_jump hp hl hr
    | exit status n =>
      obtain ⟨_, _, _, rfl⟩ := hr.eq_exit
      exact h.congr rfl rfl
    | fault f n =>
      obtain ⟨hpc, hcalls⟩ := hr.control_of_fault
      exact h.congr hpc hcalls

theorem Reachable.controlled (hp : Program.ofInstructions is = .ok p) (h : Reachable p m) :
    Controlled p m := by
  induction h with
  | start input stdout stderr => exact controlled_start input stdout stderr
  | step _ ih => exact ih.step hp

/-! ## Moves and ends -/

theorem move_of_running (hp : Program.ofInstructions is = .ok p) (h : m.step p = .running m') :
    ∃ line, p.line? m.pc = some line ∧ Move p m line.command m'.pc := by
  obtain ⟨line, n, hl, ⟨hr, rfl⟩ | ⟨k, hr, rfl⟩⟩ := rule_of_running h
  · obtain ⟨hpc, _, hop⟩ := hr.control_of_next
    refine ⟨line, hl, ?_⟩
    change Move p m line.command (n.pc + 1)
    rw [hpc]
    exact .onward hop
  · refine ⟨line, hl, ?_⟩
    obtain ⟨name, ht, hk, _⟩ | ⟨hc, hcalls⟩ := hr.control_of_jump
    · obtain ⟨target, hline, hname⟩ := (Program.label_eq_ok_iff hp).1 hk
      refine .toLabel ht hline hname ?_
      intro j other hj hother
      have hj := (Program.label_eq_ok_iff hp).2 ⟨other, hj, hother⟩
      exact Except.ok.inj (hj.symm.trans hk)
    · exact .back hc hcalls

theorem leaves_of_over (hm : Controlled p m) (h : (m.step p).Over) : Leaves p (m.step p) := by
  cases hs : m.step p with
  | running m' => simp [hs, Progress.Over] at h
  | ended status m' =>
    obtain ⟨hl, rfl, rfl⟩ | ⟨line, n, hl, hr, rfl⟩ := rule_of_ended hs
    · exact .atEnd (Nat.le_antisymm hm.pc_le (Program.line?_eq_none_iff.1 hl))
    · obtain ⟨s, hc, hstatus, rfl⟩ := hr.eq_exit
      obtain ⟨code, rfl, hcode, rfl⟩ := status_eq_ok_iff.1 hstatus
      exact .byExit hl hc hcode
  | failed f m' =>
    obtain ⟨line, hl, hr⟩ := rule_of_failed hs
    exact .byFault (hr.control_of_fault.1 ▸ hl)

/-- In every state of every run of an accepted program the position is inside of it or at its end,
and the call stack leads back behind calls. A step leads to the next line, to the label it names or
behind the last call; a run comes to its end at the end of the program, by its status or by a
fault; and what stands behind a jump, a return or an exit without being a label is never reached. -/
theorem control_flow_integrity (hp : Program.ofInstructions is = .ok p) (hm : Reachable p m) :
    m.pc ≤ p.size ∧ (∀ r ∈ m.calls, p.IsReturn r) ∧
      (∀ m', m.step p = .running m' →
        ∃ line, p.line? m.pc = some line ∧ Move p m line.command m'.pc) ∧
      (∀ k r, Calls p m k r → Leaves p r) ∧
      ∀ i, p.IsBarred i → m.pc ≠ i := by
  have hc := hm.controlled hp
  refine ⟨hc.pc_le, hc.isReturn, fun m' => move_of_running hp, ?_, ?_⟩
  · intro k r hr
    obtain ⟨last, hlast, rfl, hover⟩ := hr.exists_last hm
    exact leaves_of_over (hlast.controlled hp) hover
  · rintro i hi rfl
    exact hc.not_isBarred hi

/-- Inside of a called function, with a line behind an exit that is never carried out. -/
theorem control_flow_integrity_call :
    ∃ (p : Program) (m m' : Machine), Program.ofInstructions
        [⟨40, .label, [.label "f"]⟩, ⟨10, .call, [.label "f"]⟩, ⟨50, .ret, []⟩,
          ⟨20, .exit, [.symbol (.const (.int 3))]⟩, ⟨30, .brk, []⟩] = .ok p ∧
      Reachable p m ∧ m.calls = [1] ∧ p.IsReturn 1 ∧ p.IsBarred 2 ∧ m.pc ≠ 2 ∧
      Calls p m 0 (.ended 3 m') ∧ Leaves p (.ended 3 m') := by
  let p : Program :=
    ⟨#[⟨10, .call "f"⟩, ⟨20, .exit (.const (.int 3))⟩, ⟨30, .brk⟩, ⟨40, .label "f"⟩, ⟨50, .ret⟩],
      [("f", 3)]⟩
  have hp : Program.ofInstructions _ = .ok p :=
    Program.ofInstructions_of_perm
      [⟨40, .label "f"⟩, ⟨10, .call "f"⟩, ⟨50, .ret⟩, ⟨20, .exit (.const (.int 3))⟩, ⟨30, .brk⟩]
      (by decide) (by decide) (by decide) rfl
  let m : Machine := ((start ⟨[]⟩ (.empty none) (.empty none)).step p).machine
  have hm : Reachable p m := (Reachable.start _ _ _).step
  obtain ⟨_, hcalls, _, hleaves, hbarred⟩ := control_flow_integrity hp hm
  have hb : p.IsBarred 2 := ⟨by decide, ⟨.brk, rfl, by decide⟩, .exit, by decide, rfl⟩
  have hret : Calls p m 0 (.ended 3 { m with pc := 1, calls := [], completed := 4 }) :=
    .once ⟨trivial, 3, rfl⟩
  exact ⟨p, m, _, hp, hm, rfl, hcalls 1 (List.mem_singleton_self 1), hb, hbarred 2 hb, hret,
    hleaves 0 _ hret⟩

end Machine

end Ippcode
