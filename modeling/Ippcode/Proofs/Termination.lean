import Ippcode.Proofs.Footprint
import Ippcode.Proofs.Inert
import Ippcode.Proofs.Reentry

/-! # Runs that only go forward

If nothing returns and every label that a line goes to stands behind it, the position rises with
every step. A run then carries out each line at most once, in ascending order, and comes to its end
within as many steps as there are lines. Without any jump or exit it carries out the lines one after
the other, all of them or up to the one that faults.
-/
namespace Ippcode

/-! ## What is carried out -/

/-- The position of the line that an event begins. -/
def Event.position? : Event → Option Nat
  | .began pc _ _ => some pc
  | _ => none

namespace Program

variable {is : List Instruction} {p : Program} {k k' : Nat} {i j : Instruction}

theorem length_instructions (p : Program) : p.instructions.length = p.size := by
  simp [instructions, size]

theorem size_eq_length (hp : ofInstructions is = .ok p) : p.size = is.length := by
  have hlength := (perm_instructions hp).length_eq
  rw [← hlength]
  exact p.length_instructions.symm

theorem getElem?_instructions (p : Program) (k : Nat) : p.instructions[k]? = p.instruction? k := by
  simp [instructions, instruction?, line?]

theorem instruction?_of_line {line : Line} (h : p.line? k = some line) :
    p.instruction? k = some line.instruction := by
  rw [instruction?, h, Option.map_some]

/-- The lines of an accepted program stand in the order of their numbers. -/
theorem order_lt_of_lt (hp : ofInstructions is = .ok p) (hi : p.instruction? k = some i)
    (hj : p.instruction? k' = some j) (hlt : k < k') : i.order < j.order := by
  have hrises : p.instructions.Pairwise (·.order < ·.order) :=
    List.pairwise_map.2 (pairwise_lines hp)
  rw [← getElem?_instructions] at hi hj
  obtain ⟨hk, rfl⟩ := List.getElem?_eq_some_iff.1 hi
  obtain ⟨hk', rfl⟩ := List.getElem?_eq_some_iff.1 hj
  exact List.pairwise_iff_getElem.1 hrises k k' hk hk' hlt

theorem lt_of_order_lt (hp : ofInstructions is = .ok p) (hi : p.instruction? k = some i)
    (hj : p.instruction? k' = some j) (hlt : i.order < j.order) : k < k' := by
  by_contra hge
  rcases Nat.lt_or_eq_of_le (Nat.le_of_not_lt hge) with hgt | rfl
  · exact Int64.lt_asymm hlt (order_lt_of_lt hp hj hi hgt)
  · cases hi.symm.trans hj
    exact Int64.lt_irrefl hlt

/-- The instructions at the first `k` positions. -/
theorem filterMap_range (p : Program) (hk : k ≤ p.size) :
    (List.range k).filterMap p.instruction? = p.instructions.take k := by
  induction k with
  | zero => simp
  | succ k ih =>
    have hfirst := ih (Nat.le_of_succ_le hk)
    rw [List.range_succ, List.filterMap_append, hfirst, List.take_add_one, getElem?_instructions]
    cases h : p.instruction? k <;> simp [h]

end Program

namespace Machine

variable {ρ σ : Type} [Reader ρ] [Writer σ] {p : Program} {m m' : Machine ρ σ}

/-- The positions of the lines that at most so many steps begin. -/
def visited (p : Program) (m : Machine ρ σ) (n : Nat) : List Nat :=
  (m.trace p n).filterMap Event.position?

/-- The instructions that at most so many steps carry out, the last of which may fault. -/
def executed (p : Program) (m : Machine ρ σ) (n : Nat) : List Instruction :=
  (m.visited p n).filterMap p.instruction?

theorem positions_events (line : Line) :
    (m.events p line).filterMap Event.position? = [m.pc] := by
  obtain ⟨order, c⟩ := line
  unfold events
  cases c with
  | write src | dPrint src =>
    change m.pc :: (m.printEvents _ src).filterMap Event.position? = _
    rw [filterMap_printEvents fun _ _ => rfl]
  | pushFrame | popFrame => cases m.exec p _ <;> rfl
  | _ => rfl

theorem visited_of_end (h : p.line? m.pc = none) (n : Nat) : m.visited p n = [] := by
  cases n with
  | zero => rfl
  | succ n => simp [visited, trace, stepEvents, h, step_of_end h]

theorem visited_of_running (h : m.step p = .running m') (n : Nat) :
    m.visited p (n + 1) = m.pc :: m'.visited p n := by
  obtain ⟨line, _, hl, _⟩ := rule_of_running h
  simp [visited, trace, stepEvents, h, hl, positions_events]

theorem visited_of_over {line : Line} (hl : p.line? m.pc = some line) (h : (m.step p).Over)
    (n : Nat) : m.visited p (n + 1) = [m.pc] := by
  unfold visited trace stepEvents
  cases hs : m.step p with
  | running m' => simp [hs, Progress.Over] at h
  | ended | failed => simp [hl, positions_events]

/-! ## What is completed -/

/-- No line counts itself; that is done once it is carried out. -/
theorem Rule.completed_of_done {order : Int64} {c : Command} {o : Outcome ρ σ}
    (h : Rule p order m c o) (hd : o.done? = some m') : m'.completed = m.completed := by
  cases h <;> cases hd <;> rfl

theorem completed_of_running (h : m.step p = .running m') : m'.completed = m.completed + 1 := by
  obtain ⟨line, n, _, ⟨hr, rfl⟩ | ⟨k, hr, rfl⟩⟩ := rule_of_running h
  · exact congrArg (· + 1) (hr.completed_of_done rfl)
  · exact congrArg (· + 1) (hr.completed_of_done rfl)

theorem completed_of_failed {f : Fault} (h : m.step p = .failed f m') :
    m'.completed = m.completed ∧ m'.pc = m.pc ∧ m.pc < p.size := by
  obtain ⟨line, hl, hr⟩ := rule_of_failed h
  have heffect := hr.effect_of_fault
  exact ⟨heffect.completed, heffect.pc, Program.line?_lt hl⟩

/-- A run ends behind the last line, or by a line that it completes. -/
theorem completed_of_ended {status : Nat} (h : m.step p = .ended status m') :
    p.line? m.pc = none ∧ status = 0 ∧ m' = m ∨
      p.opcode? m.pc = some .exit ∧ m'.completed = m.completed + 1 := by
  obtain hend | ⟨line, n, hl, hr, rfl⟩ := rule_of_ended h
  · exact .inl hend
  · obtain ⟨s, hc, _, rfl⟩ := hr.eq_exit
    refine .inr ⟨?_, rfl⟩
    rw [Program.opcode?_of_line hl, hc]
    rfl

end Machine

/-! ## Steps forward -/

namespace Instruction

/-- Nothing returns, and what an instruction goes to is not declared at all or has a larger
order. -/
structure OnlyForward (is : List Instruction) : Prop where
  noReturn : ∀ i ∈ is, i.opcode ≠ .ret
  ahead : ∀ i ∈ is, ∀ j ∈ is, ∀ name ∈ j.labelName?, i.Targets name → i.order < j.order

/-- Nothing goes elsewhere than to what follows it, or ends the run. -/
def Straight (is : List Instruction) : Prop :=
  ∀ i ∈ is, i.opcode ∉ [.call, .jump, .jumpIfEq, .jumpIfNeq, .exit]

instance (is : List Instruction) : Decidable (Straight is) :=
  inferInstanceAs (Decidable (∀ _ ∈ _, _))

end Instruction

open Instruction

namespace Machine

variable {ρ σ : Type} [Reader ρ] [Writer σ] {is : List Instruction} {p : Program}
  {m m' : Machine ρ σ}

theorem Controlled.of_running (hp : Program.ofInstructions is = .ok p) (hm : Controlled p m)
    (h : m.step p = .running m') : Controlled p m' := by
  have hstep := hm.step hp
  rwa [h] at hstep

theorem pc_lt_of_running (hp : Program.ofInstructions is = .ok p) (hf : OnlyForward is)
    (h : m.step p = .running m') : m.pc < m'.pc := by
  obtain ⟨line, hl, hmove⟩ := move_of_running hp h
  have hi := Program.instruction?_of_line hl
  have hmem := Program.mem_of_instruction? hp hi
  generalize m'.pc = k at hmove
  cases hmove with
  | onward => omega
  | @toLabel name k target ht hk hc =>
    -- a label that is found has the larger order, and so it stands behind the line
    have hj := Program.instruction?_of_line hk
    have hname := labelName?_eq_some_iff.2 (Line.declares_instruction.2 hc)
    have horder := hf.ahead _ hmem _ (Program.mem_of_instruction? hp hj) name hname
      (Line.targets_of_target? ht)
    exact Program.lt_of_order_lt hp hi hj horder
  | back hc =>
    refine absurd ?_ (hf.noReturn _ hmem)
    rw [Line.instruction, hc]
    rfl

theorem add_le_pc_of_run (hp : Program.ofInstructions is = .ok p) (hf : OnlyForward is) {n : Nat}
    (h : m.run p n = .running m') : m.pc + n ≤ m'.pc := by
  induction n generalizing m with
  | zero =>
    cases h
    omega
  | succ n ih =>
    cases hs : m.step p with
    | running m₁ =>
      rw [run_of_running hs] at h
      have hlt := pc_lt_of_running hp hf hs
      have hle := ih h
      omega
    | ended | failed => simp [run, hs] at h

/-- After as many steps as there are lines, and one to find the end, a run is over. -/
theorem over_run_of_forward (hp : Program.ofInstructions is = .ok p) (hf : OnlyForward is)
    (hm : Reachable p m) : (m.run p (p.size + 1)).Over := by
  cases hrun : m.run p (p.size + 1) with
  | running m' =>
    have hle := add_le_pc_of_run hp hf hrun
    have hpc := ((hm.of_run hrun).controlled hp).pc_le
    omega
  | ended | failed => trivial

/-- The lines that a run has yet to complete are among those that it has not passed. -/
theorem completed_run_le (hp : Program.ofInstructions is = .ok p) (hf : OnlyForward is)
    (hm : Controlled p m) (n : Nat) :
    (m.run p n).machine.completed + m.pc ≤ m.completed + p.size := by
  have hpc := hm.pc_le
  induction n generalizing m with
  | zero =>
    change m.completed + m.pc ≤ _
    omega
  | succ n ih =>
    cases hs : m.step p with
    | running m₁ =>
      have hm₁ := hm.of_running hp hs
      have hle := ih hm₁ hm₁.pc_le
      have hlt := pc_lt_of_running hp hf hs
      have hcompleted := completed_of_running hs
      rw [run_of_running hs]
      omega
    | ended status m₁ =>
      have ho : (m.step p).Over := by simp [hs, Progress.Over]
      rw [run_of_over ho, hs]
      change m₁.completed + m.pc ≤ _
      obtain ⟨_, _, rfl⟩ | ⟨hop, hcompleted⟩ := completed_of_ended hs
      · omega
      · obtain ⟨line, hl, _⟩ := Option.map_eq_some_iff.1 hop
        have hlt := Program.line?_lt hl
        omega
    | failed f m₁ =>
      have ho : (m.step p).Over := by simp [hs, Progress.Over]
      rw [run_of_over ho, hs]
      change m₁.completed + m.pc ≤ _
      obtain ⟨hcompleted, _, _⟩ := completed_of_failed hs
      omega

theorem visited_rises (hp : Program.ofInstructions is = .ok p) (hf : OnlyForward is) (n : Nat) :
    (m.visited p n).Pairwise (· < ·) ∧ ∀ k ∈ m.visited p n, m.pc ≤ k := by
  induction n generalizing m with
  | zero => exact ⟨.nil, by simp [visited, trace]⟩
  | succ n ih =>
    cases hl : p.line? m.pc with
    | none => simp [visited_of_end hl]
    | some line =>
      cases hs : m.step p with
      | running m₁ =>
        have hlt := pc_lt_of_running hp hf hs
        obtain ⟨hrises, hle⟩ := ih (m := m₁)
        rw [visited_of_running hs]
        constructor
        · refine List.pairwise_cons.2 ⟨?_, hrises⟩
          intro k hk
          have hk := hle k hk
          omega
        · intro k hk
          rcases List.mem_cons.1 hk with rfl | hk
          · exact Nat.le_refl _
          · have hk := hle k hk
            omega
      | ended | failed =>
        have ho : (m.step p).Over := by simp [hs, Progress.Over]
        simp [visited_of_over hl ho]

/-- Positions that rise are those of instructions that rise in order. -/
theorem executed_rises (hp : Program.ofInstructions is = .ok p) (hf : OnlyForward is) (n : Nat) :
    (m.executed p n).Pairwise (·.order < ·.order) := by
  refine List.pairwise_filterMap.2 ((visited_rises hp hf n).1.imp ?_)
  intro k k' hlt i hi j hj
  exact Program.order_lt_of_lt hp hi hj hlt

theorem mem_of_executed (hp : Program.ofInstructions is = .ok p) {n : Nat} {i : Instruction}
    (hi : i ∈ m.executed p n) : i ∈ is := by
  obtain ⟨k, _, hk⟩ := List.mem_filterMap.1 hi
  exact Program.mem_of_instruction? hp hk

/-! ## One line after the other -/

theorem opcode_not_mem_of_straight (hp : Program.ofInstructions is = .ok p) (hs : Straight is)
    {k : Nat} {line : Line} (hl : p.line? k = some line) :
    line.command.opcode ∉ [.call, .jump, .jumpIfEq, .jumpIfNeq, .exit] :=
  hs line.instruction (Program.mem_of_instruction? hp (Program.instruction?_of_line hl))

theorem pc_of_running_straight (hp : Program.ofInstructions is = .ok p) (hf : OnlyForward is)
    (hs : Straight is) (h : m.step p = .running m') : m'.pc = m.pc + 1 := by
  obtain ⟨line, hl, hmove⟩ := move_of_running hp h
  have hop := opcode_not_mem_of_straight hp hs hl
  have hmem := Program.mem_of_instruction? hp (Program.instruction?_of_line hl)
  generalize m'.pc = k at hmove
  cases hmove with
  | onward => rfl
  | toLabel ht =>
    have htargets := (Line.targets_of_target? ht).1
    have hsub : [Opcode.call, .jump, .jumpIfEq, .jumpIfNeq] ⊆
        [.call, .jump, .jumpIfEq, .jumpIfNeq, .exit] := by decide
    exact absurd (hsub htargets) hop
  | back hc =>
    refine absurd ?_ (hf.noReturn _ hmem)
    rw [Line.instruction, hc]
    rfl

/-- A run that is over has carried out every line from its position on, or faults at one of
them. -/
theorem run_of_straight (hp : Program.ofInstructions is = .ok p) (hf : OnlyForward is)
    (hs : Straight is) (hm : Controlled p m) {n : Nat} (hover : (m.run p n).Over) :
    (∃ m', m.run p n = .ended 0 m' ∧ m'.completed + m.pc = m.completed + p.size ∧
        m.visited p n = List.range' m.pc (p.size - m.pc)) ∨
      ∃ f m', m.run p n = .failed f m' ∧ m.pc ≤ m'.pc ∧ m'.pc < p.size ∧
        m'.completed + m.pc = m.completed + m'.pc ∧
        m.visited p n = List.range' m.pc (m'.pc - m.pc + 1) := by
  induction n generalizing m with
  | zero => exact hover.elim
  | succ n ih =>
    cases hstep : m.step p with
    | running m₁ =>
      have hm₁ := hm.of_running hp hstep
      have hpc := pc_of_running_straight hp hf hs hstep
      have hcompleted := completed_of_running hstep
      have hle := hm₁.pc_le
      rw [run_of_running hstep] at hover ⊢
      rw [visited_of_running hstep]
      obtain ⟨m', hrun, hdone, hvisited⟩ | ⟨f, m', hrun, hge, hlt, hdone, hvisited⟩ := ih hm₁ hover
      · refine .inl ⟨m', hrun, by omega, ?_⟩
        have hleft : p.size - m.pc = (p.size - m₁.pc) + 1 := by omega
        rw [hvisited, hleft, List.range'_succ, hpc]
      · refine .inr ⟨f, m', hrun, by omega, hlt, by omega, ?_⟩
        have hleft : m'.pc - m.pc + 1 = (m'.pc - m₁.pc + 1) + 1 := by omega
        rw [hvisited, hleft, List.range'_succ (n := m'.pc - m₁.pc + 1), hpc]
    | ended status m₁ =>
      have ho : (m.step p).Over := by simp [hstep, Progress.Over]
      rw [run_of_over ho, hstep]
      obtain ⟨hl, rfl, rfl⟩ | ⟨hop, _⟩ := completed_of_ended hstep
      · have hpc : m₁.pc = p.size :=
          Nat.le_antisymm hm.pc_le (Program.line?_eq_none_iff.1 hl)
        refine .inl ⟨m₁, rfl, by omega, ?_⟩
        rw [visited_of_end hl, hpc, Nat.sub_self, List.range'_zero]
      · obtain ⟨line, hl, hexit⟩ := Option.map_eq_some_iff.1 hop
        have hnot := opcode_not_mem_of_straight hp hs hl
        rw [hexit] at hnot
        exact absurd (by decide) hnot
    | failed f m₁ =>
      have ho : (m.step p).Over := by simp [hstep, Progress.Over]
      obtain ⟨hcompleted, hpc, hlt⟩ := completed_of_failed hstep
      obtain ⟨line, hl, _⟩ := rule_of_failed hstep
      rw [run_of_over ho, hstep, visited_of_over hl ho]
      refine .inr ⟨f, m₁, rfl, by omega, by omega, by omega, ?_⟩
      rw [hpc, Nat.sub_self]
      rfl

/-- A program in which nothing leads back comes to its end, whatever is read and wherever it writes.
It carries out each instruction at most once, in ascending order, and completes no more instructions
than it has. If nothing goes elsewhere than to what follows it, all instructions are carried out one
after the other, or all up to the one that faults, which is not completed. -/
theorem forward_run_bounded (hp : Program.ofInstructions is = .ok p) (hf : OnlyForward is)
    (input : ρ) (stdout stderr : σ) :
    let m : Machine ρ σ := start input stdout stderr
    (∃ r, Returns p m r) ∧
      (∀ n, (m.executed p n).Pairwise (·.order < ·.order) ∧ (∀ i ∈ m.executed p n, i ∈ is) ∧
        (m.run p n).machine.completed ≤ is.length) ∧
      (Straight is → ∀ n, (m.run p n).Over →
        (∃ m', m.run p n = .ended 0 m' ∧ m'.completed = is.length ∧
          m.executed p n = p.instructions) ∨
        ∃ i f m', 1 ≤ i ∧ i ≤ is.length ∧ m.run p n = .failed f m' ∧ m'.pc = i - 1 ∧
          m'.completed = i - 1 ∧ m.executed p n = p.instructions.take i) := by
  intro m
  have hm : Reachable p m := .start input stdout stderr
  have hcontrolled := hm.controlled hp
  have hsize := Program.size_eq_length hp
  have hpc : m.pc = 0 := rfl
  have hnone : m.completed = 0 := rfl
  refine ⟨⟨_, over_run_of_forward hp hf hm, _, rfl⟩, ?_, ?_⟩
  · intro n
    have hle := completed_run_le hp hf hcontrolled n
    exact ⟨executed_rises hp hf n, fun i => mem_of_executed hp, by omega⟩
  · intro hs n hover
    obtain ⟨m', hrun, hdone, hvisited⟩ | ⟨f, m', hrun, _, hlt, hdone, hvisited⟩ :=
      run_of_straight hp hf hs hcontrolled hover
    · refine .inl ⟨m', hrun, by omega, ?_⟩
      rw [executed, hvisited, hpc, Nat.sub_zero, ← List.range_eq_range',
        p.filterMap_range (Nat.le_refl _), ← p.length_instructions, List.take_length]
    · refine .inr ⟨m'.pc + 1, f, m', by omega, by omega, hrun, rfl, by omega, ?_⟩
      rw [executed, hvisited, hpc, Nat.sub_zero, ← List.range_eq_range', p.filterMap_range hlt]

/-- A call and a jump over what is between, to an exit; and four lines of which the third faults. -/
theorem forward_run_bounded_fault :
    ∃ (p q : Program) (r : Progress) (m' : Machine),
      Program.ofInstructions [⟨40, .label, [.label "end"]⟩, ⟨10, .call, [.label "end"]⟩,
        ⟨20, .brk, []⟩, ⟨30, .jump, [.label "nowhere"]⟩,
        ⟨50, .exit, [.symbol (.const (.int 3))]⟩] = .ok p ∧
      Returns p (start ⟨[]⟩ (.empty none) (.empty none)) r ∧ r.machine.completed ≤ 5 ∧
      Program.ofInstructions [⟨3, .popS, [.symbol (.var ⟨.gf, "x"⟩)]⟩,
        ⟨1, .write, [.symbol (.const (.bool true))]⟩, ⟨4, .brk, []⟩, ⟨2, .createFrame, []⟩] = .ok q ∧
      (start ⟨[]⟩ (.empty none) (.empty none)).run q 5 =
        .failed (.emptyStack "operand stack") m' ∧ m'.completed = 2 ∧
      (start ⟨[]⟩ (.empty none) (.empty none) : Machine).executed q 5 = q.instructions.take 3 := by
  have hp : Program.ofInstructions _ = .ok ⟨#[⟨10, .call "end"⟩, ⟨20, .brk⟩, ⟨30, .jump "nowhere"⟩,
      ⟨40, .label "end"⟩, ⟨50, .exit (.const (.int 3))⟩], [("end", 3)]⟩ :=
    Program.ofInstructions_of_perm [⟨40, .label "end"⟩, ⟨10, .call "end"⟩, ⟨20, .brk⟩,
      ⟨30, .jump "nowhere"⟩, ⟨50, .exit (.const (.int 3))⟩] (by decide) (by decide) (by decide) rfl
  have hq : Program.ofInstructions _ = .ok ⟨#[⟨1, .write (.const (.bool true))⟩, ⟨2, .createFrame⟩,
      ⟨3, .popS ⟨.gf, "x"⟩⟩, ⟨4, .brk⟩], []⟩ :=
    Program.ofInstructions_of_perm [⟨3, .popS ⟨.gf, "x"⟩⟩, ⟨1, .write (.const (.bool true))⟩,
      ⟨4, .brk⟩, ⟨2, .createFrame⟩] (by decide) (by decide) (by decide) rfl
  let m : Machine := start ⟨[]⟩ (.empty none) (.empty none)
  obtain ⟨⟨r, hover, n, hn⟩, hbound, _⟩ :=
    forward_run_bounded hp ⟨by decide, by decide⟩ m.input m.stdout m.stderr
  have hr : r.machine.completed ≤ 5 := hn ▸ (hbound n).2.2
  obtain ⟨_, _, hstraight⟩ :=
    forward_run_bounded hq ⟨by decide, by decide⟩ m.input m.stdout m.stderr
  obtain ⟨m', hrun, _, _⟩ | ⟨i, f, m', _, _, hrun, _, hcompleted, hexecuted⟩ :=
    hstraight (by decide) 5 trivial
  · cases hrun
  · cases hrun
    have hi : i = 3 := by
      change 2 = i - 1 at hcompleted
      omega
    rw [hi] at hexecuted
    exact ⟨_, _, r, _, hp, ⟨hover, n, hn⟩, hr, hq, rfl, rfl, hexecuted⟩

end Machine

end Ippcode
