import Ippcode.Proofs.Canonical
import Ippcode.Proofs.Likeness

/-! # Lines that do nothing

A break writes to the diagnostics and a label marks a position; neither does anything else. Breaks,
and labels that no line jumps to, can therefore be left out of a program. The lines that are kept
move up, and with them the positions that the call stack and the label table hold. While the one
program carries out a line that is left out, the other waits; it never waits for long, since the
position has moved on in the meantime.
-/
namespace Ippcode

open Writer (Unfailing)

/-! ## Positions among what is kept -/

section Positions

variable {α : Type} (keep : α → Bool) {l : List α} {k : Nat} {a : α}

/-- What is kept stands behind all that is kept before it. -/
theorem getElem?_filter_countP (h : l[k]? = some a) (ha : keep a) :
    (l.filter keep)[(l.take k).countP keep]? = some a := by
  induction l generalizing k with
  | nil => simp at h
  | cons x l ih =>
    cases k with
    | zero =>
      cases h
      simp [ha]
    | succ k =>
      have hk := ih h
      cases hx : keep x with
      | true => simpa [hx] using hk
      | false => simpa [hx] using hk

theorem countP_take_succ (h : l[k]? = some a) :
    (l.take (k + 1)).countP keep = (l.take k).countP keep + if keep a then 1 else 0 := by
  rw [List.take_add_one, h, List.countP_append]
  simp [List.countP_cons]

end Positions

/-! ## What can be left out -/

namespace Instruction

/-- The instruction names this label as one to go to. -/
def Targets (i : Instruction) (name : String) : Prop :=
  i.opcode ∈ [.call, .jump, .jumpIfEq, .jumpIfNeq] ∧ .label name ∈ i.args

instance (i : Instruction) (name : String) : Decidable (i.Targets name) :=
  inferInstanceAs (Decidable (_ ∧ _))

/-- A break, or a label that no instruction of the list goes to. -/
inductive Inert (is : List Instruction) (i : Instruction) : Prop
  | brk (h : i.opcode = .brk)
  | label {name : String} (h : i.Declares name) (hunused : ∀ j ∈ is, ¬ j.Targets name)

end Instruction

open Instruction

theorem Line.targets_of_target? {l : Line} {name : String} (h : l.command.target? = some name) :
    l.instruction.Targets name := by
  obtain ⟨order, c⟩ := l
  cases c with
  | call | jump =>
    cases h
    simp [Targets, instruction, Command.opcode, Command.args]
  | jumpIf equal =>
    cases h
    cases equal <;> simp [Targets, instruction, Command.opcode, Command.args]
  | _ => cases h

namespace Program

variable {is : List Instruction} {keep : Instruction → Bool} {p q : Program} {k : Nat} {line : Line}

/-- Where a line stands once those before it that are not kept are left out. -/
def reindex (p : Program) (keep : Instruction → Bool) (k : Nat) : Nat :=
  (p.lines.toList.take k).countP fun l => keep l.instruction

def kept (p : Program) (keep : Instruction → Bool) : List Line :=
  p.lines.toList.filter fun l => keep l.instruction

/-- The other program has the lines that are kept, and the lines that are not kept are breaks and
labels that no line goes to. -/
structure Reduced (keep : Instruction → Bool) (p q : Program) : Prop where
  lines : q.lines.toList = p.kept keep
  inert : ∀ k line, p.line? k = some line → keep line.instruction = false →
    line.command = .brk ∨ ∃ name, line.command = .label name
  target : ∀ k line name, p.line? k = some line → line.command.target? = some name →
    q.label name = (p.label name).map (p.reindex keep)

theorem getElem?_toList (h : p.line? k = some line) : p.lines.toList[k]? = some line := by
  rw [Array.getElem?_toList]
  exact h

theorem reindex_succ (h : p.line? k = some line) :
    p.reindex keep (k + 1) = p.reindex keep k + if keep line.instruction then 1 else 0 :=
  countP_take_succ _ (getElem?_toList h)

theorem line?_reindex (hlines : q.lines.toList = p.kept keep) (h : p.line? k = some line)
    (hk : keep line.instruction) : q.line? (p.reindex keep k) = some line := by
  rw [line?, ← Array.getElem?_toList, hlines]
  exact getElem?_filter_countP (fun l => keep l.instruction) (getElem?_toList h) hk

theorem line?_reindex_of_end (hlines : q.lines.toList = p.kept keep) (h : p.line? k = none) :
    q.line? (p.reindex keep k) = none := by
  have hk : p.lines.toList.length ≤ k := line?_eq_none_iff.1 h
  have hcount : p.reindex keep k = q.lines.toList.length := by
    rw [reindex, List.take_of_length_le hk, List.countP_eq_length_filter, hlines, kept]
  rw [line?, ← Array.getElem?_toList, hcount]
  exact List.getElem?_eq_none (Nat.le_refl _)

/-- The lines of an accepted program that are kept make a program. -/
theorem exists_reduced_lines (hp : ofInstructions is = .ok p) (keep : Instruction → Bool) :
    ∃ q, ofInstructions (is.filter keep) = .ok q ∧ q.lines.toList = p.kept keep := by
  obtain ⟨hfits, hpos, horders, hlabels⟩ := wellFormed_of_ok hp
  have hsub : (is.filter keep).Sublist is := List.filter_sublist
  have hwell : WellFormed (is.filter keep) := by
    refine ⟨?_, ?_, ?_, ?_⟩
    · exact fun i hi => hfits i (hsub.subset hi)
    · exact fun i hi => hpos i (hsub.subset hi)
    · exact (hsub.map order).nodup horders
    · exact (hsub.filterMap labelName?).nodup hlabels
  obtain ⟨q, hq⟩ := exists_ok_iff.2 hwell
  refine ⟨q, hq, ?_⟩
  have hperm : (p.instructions.filter keep).Perm (is.filter keep) :=
    (perm_instructions hp).filter keep
  have hrises : p.instructions.Pairwise (·.order < ·.order) :=
    List.pairwise_map.2 (pairwise_lines hp)
  have hsame := eq_instructions_of_perm hq hperm (hrises.filter keep)
  rw [instructions, instructions, List.filter_map] at hsame
  exact ((List.map_inj_right fun _ _ h => Line.instruction_injective h).1 hsame).symm

theorem eq_labelMissing_of_label {name : String} {f : Fault} (h : p.label name = .error f) :
    f = .labelMissing name := by
  unfold label at h
  split at h
  · cases h
  · cases h
    rfl

/-- A label that a line goes to is kept, and is found where it has moved to. -/
theorem label_reindex (hp : ofInstructions is = .ok p)
    (hq : ofInstructions (is.filter keep) = .ok q) (hlines : q.lines.toList = p.kept keep)
    {name : String}
    (hkept : ∀ j other, p.line? j = some other → other.command = .label name →
      keep other.instruction) :
    q.label name = (p.label name).map (p.reindex keep) := by
  cases hk : p.label name with
  | ok k =>
    obtain ⟨line, hl, hc⟩ := (label_eq_ok_iff hp).1 hk
    exact (label_eq_ok_iff hq).2 ⟨line, line?_reindex hlines hl (hkept k line hl hc), hc⟩
  | error f =>
    cases hj : q.label name with
    | error g => rw [eq_labelMissing_of_label hj, eq_labelMissing_of_label hk, Except.map]
    | ok j =>
      obtain ⟨line, hl, hc⟩ := (label_eq_ok_iff hq).1 hj
      have hline : line ∈ p.kept keep := by
        rw [← hlines]
        exact List.mem_of_getElem? (getElem?_toList hl)
      obtain ⟨k, hl⟩ := List.getElem?_of_mem (List.mem_filter.1 hline).1
      rw [Array.getElem?_toList] at hl
      rw [(label_eq_ok_iff hp).2 ⟨line, hl, hc⟩] at hk
      cases hk

/-- Leaving out what is inert from an accepted list reduces the program. -/
theorem exists_reduced (hp : ofInstructions is = .ok p)
    (hkeep : ∀ i ∈ is, keep i = false → Inert is i) :
    ∃ q, ofInstructions (is.filter keep) = .ok q ∧ Reduced keep p q := by
  obtain ⟨q, hq, hlines⟩ := exists_reduced_lines hp keep
  have hmem : ∀ k line, p.line? k = some line → line.instruction ∈ is := by
    intro k line hl
    exact mem_of_instruction? hp (Option.map_eq_some_iff.2 ⟨line, hl, rfl⟩)
  refine ⟨q, hq, hlines, ?_, ?_⟩
  · intro k line hl hk
    cases hkeep _ (hmem k line hl) hk with
    | brk h => exact .inl (Command.eq_of_opcode h rfl)
    | label h => exact .inr ⟨_, Line.declares_instruction.1 h⟩
  · intro k line name hl ht
    refine label_reindex hp hq hlines ?_
    intro j other hj hc
    by_contra hk
    cases hkeep _ (hmem j other hj) (Bool.not_eq_true _ ▸ hk) with
    | brk h =>
      rw [Line.instruction, hc] at h
      cases h
    | label h hunused =>
      have hname := Line.declares_instruction.1 h
      cases hname.symm.trans hc
      exact hunused _ (hmem k line hl) (Line.targets_of_target? ht)

end Program

/-! ## The two programs side by side -/

namespace Likeness

variable {keep : Instruction → Bool} {p q : Program} {ρ σ : Type}

/-- The positions that lines have moved to, when so many lines that are not kept were carried out.
-/
def dropping (p : Program) (keep : Instruction → Bool) (d : Nat) : Likeness :=
  { Likeness.refl with position := p.reindex keep, ahead := -d }

theorem not_hides_dropping (d : Nat) (f : Fault) : ¬ (dropping p keep d).Hides f := by
  rintro ⟨h | h | h, _⟩ <;> exact h rfl

theorem over_iff_of_dropping [Writer σ] {r r' : Progress ρ σ} {d : Nat}
    (h : r.Like (dropping p keep d) r') : r.Over ↔ r'.Over := by
  cases h with
  | running | ended | failed => exact Iff.rfl
  | hidden hf => exact absurd hf (not_hides_dropping d _)

theorem machine_dropping (d : Nat) (stderr : σ) :
    (dropping p keep d).machine stderr = fun m : Machine ρ σ =>
      { m with
        pc := p.reindex keep m.pc
        calls := m.calls.map (p.reindex keep)
        completed := m.completed - d
        stderr } := by
  funext m
  have hmemory := memory_of_refl (φ := dropping p keep d) rfl m.memory
  have hcompleted : ((m.completed : Int) + -(d : Int)).toNat = m.completed - d := by omega
  simp only [machine, hmemory]
  simp [dropping, refl, hcompleted]

end Likeness

/-- A line that is kept stands where it has moved to. -/
theorem Program.Reduced.shown {keep : Instruction → Bool} {p q : Program} {k : Nat} {line : Line}
    (h : p.Reduced keep q) (hl : p.line? k = some line) (hk : keep line.instruction) (d : Nat) :
    Shown (.dropping p keep d) p q k line := by
  refine ⟨?_, ?_, ?_⟩
  · change q.line? (p.reindex keep k) = some ⟨line.order, Renaming.refl.command line.command⟩
    rw [Renaming.command_refl]
    exact line?_reindex h.lines hl hk
  · change p.reindex keep (k + 1) = p.reindex keep k + 1
    rw [reindex_succ hl, if_pos hk]
  · intro name ht
    change q.label name = Renaming.refl.result (p.reindex keep) (p.label name)
    rw [h.target k line name hl ht]
    cases p.label name with
    | ok j => rfl
    | error f => rw [Except.map, Renaming.result, Renaming.fault_refl]

namespace Machine

variable {ρ σ : Type} [Reader ρ] [Writer σ] {keep : Instruction → Bool} {p q : Program}
  {a b : Machine ρ σ} {d : Nat}

/-- Whether the next line to be carried out is one that is not kept. -/
def drops (m : Machine ρ σ) (p : Program) (keep : Instruction → Bool) : Bool :=
  (p.line? m.pc).any fun line => !keep line.instruction

/-- How many lines that are not kept are carried out in at most `n` steps. -/
def dropped (p : Program) (keep : Instruction → Bool) (m : Machine ρ σ) : Nat → Nat
  | 0 => 0
  | n + 1 =>
    (m.drops p keep).toNat +
      match m.step p with
      | .running m' => m'.dropped p keep n
      | _ => 0

variable {m m' : Machine ρ σ}

theorem dropped_of_running (hs : m.step p = .running m') (n : Nat) :
    m.dropped p keep (n + 1) = (m.drops p keep).toNat + m'.dropped p keep n := by
  simp only [dropped, hs]

theorem dropped_of_over (h : (m.step p).Over) (n : Nat) :
    m.dropped p keep (n + 1) = (m.drops p keep).toNat := by
  unfold dropped
  cases hs : m.step p with
  | running m' => simp [hs, Progress.Over] at h
  | ended | failed => rfl

theorem dropped_le (m : Machine ρ σ) (n : Nat) : m.dropped p keep n ≤ n := by
  induction n generalizing m with
  | zero => exact Nat.le_refl 0
  | succ n ih =>
    have hle := Bool.toNat_le (m.drops p keep)
    cases hs : m.step p with
    | running m' =>
      have hrest := ih m'
      rw [dropped_of_running hs]
      omega
    | ended | failed =>
      have ho : (m.step p).Over := by simp [hs, Progress.Over]
      rw [dropped_of_over ho]
      omega

/-- A line that is not kept only moves the position on, and the other state stays where it is. -/
theorem Like.step_of_drop {line : Line} (h : a.Like (.dropping p keep d) b)
    (hred : p.Reduced keep q) (hl : p.line? a.pc = some line)
    (hk : keep line.instruction = false) :
    ∃ a', a.step p = .running a' ∧ a'.pc = a.pc + 1 ∧ a'.Like (.dropping p keep (d + 1)) b := by
  have hpc : b.pc = p.reindex keep (a.pc + 1) := by
    rw [h.pc, Program.reindex_succ hl, hk]
    rfl
  have hcompleted : (b.completed : Int) = (a.completed + 1 : Nat) + -((d + 1 : Nat) : Int) := by
    have hb : (b.completed : Int) = a.completed + -(d : Int) := h.completed
    push_cast
    omega
  rw [step_of_line hl]
  obtain ⟨order, c⟩ := line
  obtain rfl | ⟨name, rfl⟩ := hred.inert _ _ hl hk
  · simp only [Machine.exec, emit, sink, h.unfailing.write_eq]
    refine ⟨_, rfl, rfl, ?_⟩
    exact ⟨h.memory, h.calls, h.operands, hpc, hcompleted, h.input, h.stdout,
      h.unfailing.after _, h.unfailing'⟩
  · refine ⟨_, rfl, rfl, ?_⟩
    exact ⟨h.memory, h.calls, h.operands, hpc, hcompleted, h.input, h.stdout, h.unfailing,
      h.unfailing'⟩

/-- A step of the one is a step of the other, or the other waits while the position moves on. -/
theorem Like.step_cases (h : a.Like (.dropping p keep d) b) (hred : p.Reduced keep q) :
    (a.drops p keep = true ∧
      ∃ a', a.step p = .running a' ∧ a.pc < p.size ∧ a'.pc = a.pc + 1 ∧
        a'.Like (.dropping p keep (d + 1)) b) ∨
    a.drops p keep = false ∧ Progress.Like (.dropping p keep d) (a.step p) (b.step q) := by
  cases hl : p.line? a.pc with
  | none =>
    refine .inr ⟨by simp [drops, hl], h.step_of_end hl ?_⟩
    rw [h.pc]
    exact Program.line?_reindex_of_end hred.lines hl
  | some line =>
    cases hk : keep line.instruction with
    | true => exact .inr ⟨by simp [drops, hl, hk], h.step hl (hred.shown hl hk d)⟩
    | false =>
      obtain ⟨a', hs, hpc, hlike⟩ := h.step_of_drop hred hl hk
      exact .inl ⟨by simp [drops, hl, hk], a', hs, Program.line?_lt hl, hpc, hlike⟩

/-- What the one comes to in some steps the other comes to in fewer, by those that are left out. -/
theorem Like.run_dropping (h : a.Like (.dropping p keep d) b) (hred : p.Reduced keep q) (n : Nat) :
    Progress.Like (.dropping p keep (d + a.dropped p keep n)) (a.run p n)
      (b.run q (n - a.dropped p keep n)) := by
  induction n generalizing a b d with
  | zero => exact .running h
  | succ n ih =>
    obtain ⟨hdrop, a', hs, _, _, hlike⟩ | ⟨hkeep, hstep⟩ := h.step_cases hred
    · -- one step more and one line more that is left out: the other has taken none
      rw [run_of_running hs, dropped_of_running hs, hdrop, Bool.toNat_true, Nat.add_comm n 1,
        Nat.add_sub_add_left, ← Nat.add_assoc]
      exact ih hlike
    · generalize hs : a.step p = r, hs' : b.step q = r' at hstep
      cases hstep with
      | @running a' b' hlike =>
        rw [run_of_running hs, dropped_of_running hs, hkeep, Bool.toNat_false, Nat.zero_add,
          Nat.sub_add_comm (dropped_le a' n), run_of_running hs']
        exact ih hlike
      | ended status hlike | failed f hlike =>
        have ho : (a.step p).Over := by simp [hs, Progress.Over]
        have ho' : (b.step q).Over := by simp [hs', Progress.Over]
        rw [dropped_of_over ho, hkeep, Bool.toNat_false, run_of_over ho, Nat.sub_zero,
          run_of_over ho', hs, hs']
        constructor
        exact hlike
      | hidden hf => exact absurd hf (Likeness.not_hides_dropping d _)

/-- After finitely many lines that are not kept there comes one that is, or the end. -/
theorem Like.exists_kept (h : a.Like (.dropping p keep d) b) (hred : p.Reduced keep q) :
    ∃ i a' d', a.run p i = .running a' ∧
      Progress.Like (.dropping p keep d') (a'.step p) (b.step q) := by
  -- the position rises while the other waits, and it does not rise beyond the end
  induction hleft : p.size - a.pc using Nat.strongRecOn generalizing a d with
  | ind left ih =>
    obtain ⟨_, a₁, hs, hlt, hpc, hlike⟩ | ⟨_, hstep⟩ := h.step_cases hred
    · have hless : p.size - a₁.pc < left := by omega
      obtain ⟨i, a', d', hrun, hstep⟩ := ih _ hless hlike rfl
      exact ⟨i + 1, a', d', by rw [run_of_running hs, hrun], hstep⟩
    · exact ⟨0, a, d, rfl, hstep⟩

/-- If the other comes to its end, so does the one. -/
theorem Like.exists_over (h : a.Like (.dropping p keep d) b) (hred : p.Reduced keep q) {j : Nat}
    (hover : (b.run q j).Over) : ∃ n, (a.run p n).Over := by
  induction j generalizing a b d with
  | zero => exact hover.elim
  | succ j ih =>
    obtain ⟨i, a', d', hrun, hstep⟩ := h.exists_kept hred
    generalize hs : a'.step p = r, hs' : b.step q = r' at hstep
    cases hstep with
    | @running a₁ b₁ hnext =>
      rw [run_of_running hs'] at hover
      obtain ⟨n, hn⟩ := ih hnext hover
      refine ⟨i + (n + 1), ?_⟩
      rw [run_add_of_running hrun, run_of_running hs]
      exact hn
    | ended | failed =>
      refine ⟨i + 1, ?_⟩
      rw [run_add_of_running hrun]
      simp [Machine.run, hs, Progress.Over]
    | hidden hf => exact absurd hf (Likeness.not_hides_dropping d' _)

/-- What a run of the whole program comes to determines what the other comes to. -/
theorem Like.returns_of_over (h : a.Like (.dropping p keep 0) b) (hred : p.Reduced keep q) {n : Nat}
    (hover : (a.run p n).Over) :
    a.dropped p keep n ≤ (a.run p n).machine.completed ∧
      ∃ stderr, Returns q b ((a.run p n).map id fun m =>
        { m with
          pc := p.reindex keep m.pc
          calls := m.calls.map (p.reindex keep)
          completed := m.completed - a.dropped p keep n
          stderr }) := by
  have hrun := h.run_dropping hred n
  rw [Nat.zero_add] at hrun
  have hhides : ∀ f m, a.run p n = .failed f m →
      ¬ (Likeness.dropping p keep (a.dropped p keep n)).Hides f :=
    fun f _ _ => Likeness.not_hides_dropping _ f
  have hover' := (Likeness.over_iff_of_dropping hrun).1 hover
  constructor
  · have hcompleted := (hrun.machine hhides).completed
    change (_ : Int) = _ + -(a.dropped p keep n : Int) at hcompleted
    omega
  · have heq := hrun.eq_map hhides
    have hfault : (Likeness.dropping p keep (a.dropped p keep n)).names.fault = id :=
      funext Renaming.fault_refl
    rw [hfault, Likeness.machine_dropping] at heq
    refine ⟨(b.run q (n - a.dropped p keep n)).machine.stderr, ?_, n - a.dropped p keep n, heq⟩
    rw [heq] at hover'
    exact hover'

omit [Reader ρ] in
theorem like_dropping (p : Program) (keep : Instruction → Bool) (hpc : m.pc = 0)
    (hcalls : m.calls = []) (herr : Unfailing m.stderr) : m.Like (.dropping p keep 0) m := by
  refine like_self rfl ?_ ?_ ⟨rfl, rfl, rfl⟩ rfl herr
  · rw [hpc]
    rfl
  · rw [hcalls]
    rfl

/-- Breaks, and labels that nothing goes to, can be left out. An accepted list is accepted without
any of them; its run comes to an end exactly if that of the whole list does, and to the same one:
with the same status or fault, memory, operands, input and output, and with the positions of the
state and of its call stack moved up. The whole list completes more instructions, by as many as it
carries out of those that are left out. -/
theorem inert_lines_removable {is : List Instruction} (hp : Program.ofInstructions is = .ok p)
    (hkeep : ∀ i ∈ is, keep i = false → Inert is i) (hpc : m.pc = 0) (hcalls : m.calls = [])
    (herr : Unfailing m.stderr) :
    ∃ q, Program.ofInstructions (is.filter keep) = .ok q ∧
      ((∃ r, Returns p m r) ↔ ∃ r, Returns q m r) ∧
      ∀ n, (m.run p n).Over →
        m.dropped p keep n ≤ (m.run p n).machine.completed ∧
          ∃ stderr, Returns q m ((m.run p n).map id fun a =>
            { a with
              pc := p.reindex keep a.pc
              calls := a.calls.map (p.reindex keep)
              completed := a.completed - m.dropped p keep n
              stderr }) := by
  obtain ⟨q, hq, hred⟩ := Program.exists_reduced hp hkeep
  have hlike := like_dropping p keep hpc hcalls herr
  refine ⟨q, hq, ⟨?_, ?_⟩, ?_⟩
  · rintro ⟨_, hover, n, rfl⟩
    exact ⟨_, (Likeness.over_iff_of_dropping (hlike.run_dropping hred n)).1 hover, _, rfl⟩
  · rintro ⟨_, hover, j, rfl⟩
    obtain ⟨n, hn⟩ := hlike.exists_over hred hover
    exact ⟨_, hn, n, rfl⟩
  · intro n hover
    exact hlike.returns_of_over hred hover

/-- A function with a break in it, called before a break and standing behind a label that nothing
goes to. -/
theorem inert_lines_removable_called :
    ∃ (p q : Program) (a b : Machine),
      Program.ofInstructions [⟨1, .call, [.label "f"]⟩, ⟨2, .brk, []⟩,
        ⟨3, .exit, [.symbol (.const (.int 5))]⟩, ⟨4, .label, [.label "g"]⟩,
        ⟨5, .label, [.label "f"]⟩, ⟨6, .brk, []⟩, ⟨7, .ret, []⟩] = .ok p ∧
      Program.ofInstructions [⟨1, .call, [.label "f"]⟩,
        ⟨3, .exit, [.symbol (.const (.int 5))]⟩, ⟨5, .label, [.label "f"]⟩, ⟨7, .ret, []⟩] = .ok q ∧
      Returns p (start ⟨[]⟩ (.empty none) (.empty none)) (.ended 5 a) ∧ a.pc = 2 ∧
      a.completed = 6 ∧
      Returns q (start ⟨[]⟩ (.empty none) (.empty none)) (.ended 5 b) ∧ b.pc = 1 ∧
      b.completed = 4 := by
  let p : Program := ⟨#[⟨1, .call "f"⟩, ⟨2, .brk⟩, ⟨3, .exit (.const (.int 5))⟩, ⟨4, .label "g"⟩,
    ⟨5, .label "f"⟩, ⟨6, .brk⟩, ⟨7, .ret⟩], [("f", 4), ("g", 3)]⟩
  have hp : Program.ofInstructions p.instructions = .ok p :=
    Program.ofInstructions_of_perm p.lines.toList (.refl _) (by decide) (by decide) rfl
  let keep : Instruction → Bool := fun i => decide (i.order ∉ [2, 4, 6])
  have hkeep : ∀ i ∈ p.instructions, keep i = false → Inert p.instructions i := by
    have hall : ∀ i ∈ p.instructions, keep i = false →
        i.opcode = .brk ∨ i.labelName? = some "g" := by decide
    intro i hi hk
    obtain h | h := hall i hi hk
    · exact .brk h
    · exact .label (labelName?_eq_some_iff.1 h) (by decide)
  let m : Machine := start ⟨[]⟩ (.empty none) (.empty none)
  have herr : Unfailing m.stderr := Sink.unfailing_of_unlimited rfl
  obtain ⟨q, hq, _, hruns⟩ := inert_lines_removable (m := m) hp hkeep rfl rfl herr
  obtain ⟨_, stderr, hreturns⟩ := hruns 6 trivial
  exact ⟨p, q, _, _, hp, hq, ⟨trivial, 6, rfl⟩, rfl, rfl, hreturns, rfl, rfl⟩

end Machine

end Ippcode
