import Ippcode.Proofs.Canonical
import Ippcode.Proofs.Traces

/-! # Names mean nothing

Under other names a list of instructions is accepted or refused as it was, since operands are told
by their kinds and names only compared. The program has the same lines under other names, at the
same positions, and every step that it takes is the step that it took, on frames under other names.
-/
namespace Ippcode

namespace Renaming

variable (ν : Renaming)

def line (l : Line) : Line := { l with command := ν.command l.command }

def table (t : LabelTable) : LabelTable := t.map fun e => (ν.label e.1, e.2)

def program (p : Program) : Program := ⟨p.lines.map ν.line, ν.table p.labels⟩

/-! ## Operands -/

theorem kind_argument (a : Argument) : (ν.argument a).kind = a.kind := by
  rcases a with (_ | _) | _ | _ <;> rfl

theorem fits_argument (a : Argument) (slot : Slot) : (ν.argument a).fits slot = a.fits slot := by
  rcases a with (_ | _) | _ | _ <;> cases slot <;> rfl

theorem misfit?_argument (op : Opcode) (order : Int64) (k : Nat) (slots : List Slot)
    (args : List Argument) :
    Instruction.misfit? op order k slots (args.map ν.argument) =
      Instruction.misfit? op order k slots args := by
  induction slots generalizing k args with
  | nil => cases args <;> rfl
  | cons slot slots ih =>
    cases args with
    | nil => rfl
    | cons a args =>
      simp only [List.map_cons, Instruction.misfit?, fits_argument, kind_argument, ih]

theorem fault?_instruction (i : Instruction) : (ν.instruction i).fault? = i.fault? := by
  simp only [Instruction.fault?, instruction, List.length_map, misfit?_argument]

theorem instruction_line (l : Line) : (ν.line l).instruction = ν.instruction l.instruction := by
  simp [line, instruction, Line.instruction]

end Renaming

namespace Instruction

theorem nameless_of_misfit? {op : Opcode} {order : Int64} {k : Nat} {slots : List Slot}
    {args : List Argument} {f : Fault} (h : misfit? op order k slots args = some f) :
    f.Nameless := by
  fun_induction misfit? op order k slots args with
  | case1 k slot slots arg args hfits ih => exact ih h
  | case2 =>
    cases h
    exact fun _ => rfl
  | case3 => cases h

theorem nameless_of_fault? {i : Instruction} {f : Fault} (h : i.fault? = some f) :
    f.Nameless := by
  simp only [fault?] at h
  split at h
  · exact nameless_of_misfit? h
  · cases h
    exact fun _ => rfl

end Instruction

namespace Renaming

variable (ν : Renaming)

/-! ## Programs -/

theorem result_bind {α β γ δ : Type} {image : α → β} {image' : γ → δ} {r : Except Fault α}
    {k : α → Except Fault γ} {k' : β → Except Fault δ}
    (h : ∀ a, k' (image a) = ν.result image' (k a)) :
    ν.result image r >>= k' = ν.result image' (r >>= k) := by
  cases r with
  | ok a => exact h a
  | error f => rfl

theorem mapM_result {α β γ δ : Type} {image : α → β} {image' : γ → δ} {k : α → Except Fault γ}
    {k' : β → Except Fault δ} (h : ∀ a, k' (image a) = ν.result image' (k a)) (l : List α) :
    (l.map image).mapM k' = ν.result (List.map image') (l.mapM k) := by
  induction l with
  | nil => rfl
  | cons a l ih =>
    rw [List.map_cons, List.mapM_cons, List.mapM_cons, h, ih]
    refine ν.result_bind fun c => ν.result_bind fun cs => ?_
    rfl

theorem ofInstruction_instruction (i : Instruction) :
    Line.ofInstruction (ν.instruction i) = ν.result ν.line (Line.ofInstruction i) := by
  cases h : Line.ofInstruction i with
  | ok l =>
    rw [← Line.instruction_of_ofInstruction h, ← instruction_line, Line.ofInstruction_instruction]
    rfl
  | error f =>
    have hf := Line.ofInstruction_eq_error_iff.1 h
    rw [result, Instruction.nameless_of_fault? hf ν, Line.ofInstruction_eq_error_iff,
      fault?_instruction, hf]

theorem sort_line (lines : List Line) :
    Line.sort (lines.map ν.line) = (Line.sort lines).map ν.line := by
  symm
  refine List.map_mergeSort ?_
  intro a _ b _
  rfl

theorem repeated?_line (lines : List Line) :
    Line.repeated? (lines.map ν.line) = Line.repeated? lines := by
  fun_induction Line.repeated? lines with
  | case1 a b rest heq => simp [Line.repeated?, line, heq]
  | case2 a b rest hne ih =>
    rw [← ih]
    simp [Line.repeated?, line, hne]
  | case3 lines hshort =>
    rcases lines with _ | ⟨a, _ | ⟨b, rest⟩⟩
    · rfl
    · rfl
    · exact absurd rfl (hshort a b rest)

theorem lookup_table (t : LabelTable) (name : String) :
    (ν.table t).lookup (ν.label name) = t.lookup name :=
  lookup_map_of_injective ν.label_injective t name

theorem extend_table (t : LabelTable) (k : Nat) (is : List Instruction) :
    LabelTable.extend (ν.table t) k (is.map ν.instruction) =
      ν.result ν.table (LabelTable.extend t k is) := by
  fun_induction LabelTable.extend t k is with
  | case1 => rfl
  | case2 t k order rest name args hknown =>
    simp [LabelTable.extend, instruction, argument, lookup_table, hknown, result, fault]
  | case3 t k order rest name args hnew ih =>
    have hnew' : ¬ ((ν.table t).lookup (ν.label name)).isSome := by rwa [lookup_table]
    rw [← ih, List.map_cons]
    simp only [instruction, List.map_cons, argument, LabelTable.extend, if_neg hnew']
    rfl
  | case4 t k order args rest hargs =>
    rcases args with _ | ⟨a, args⟩
    · rfl
    · cases a with
      | label name => exact absurd rfl (hargs name args)
      | symbol | type => rfl
  | case5 t k i rest hi ih =>
    rw [← ih, List.map_cons, LabelTable.extend]
    intro order args heq
    obtain ⟨o, op, as⟩ := i
    cases heq
    exact hi o as rfl

theorem ofSorted_line (lines : List Line) :
    Program.ofSorted (lines.map ν.line) = ν.result ν.program (Program.ofSorted lines) := by
  have hlabels : LabelTable.ofInstructions ((lines.map ν.line).map Line.instruction) =
      ν.result ν.table (LabelTable.ofInstructions (lines.map Line.instruction)) := by
    have hrecords : (lines.map ν.line).map Line.instruction =
        (lines.map Line.instruction).map ν.instruction := by
      simp [instruction_line]
    rw [hrecords]
    exact ν.extend_table [] 0 _
  unfold Program.ofSorted
  rw [repeated?_line, hlabels]
  cases Line.repeated? lines with
  | some order => rfl
  | none =>
    cases LabelTable.ofInstructions (lines.map Line.instruction) with
    | error f => rfl
    | ok labels => simp [result, Except.map, program]

/-- Under other names a list gives the same program or the same fault, under other names. -/
theorem ofInstructions_instruction (is : List Instruction) :
    Program.ofInstructions (is.map ν.instruction) =
      ν.result ν.program (Program.ofInstructions is) := by
  unfold Program.ofInstructions
  rw [ν.mapM_result ν.ofInstruction_instruction]
  refine ν.result_bind fun lines => ?_
  have hfind : (lines.map ν.line).find? (fun l => decide (l.order ≤ 0)) =
      (lines.find? fun l => decide (l.order ≤ 0)).map ν.line := List.find?_map
  rw [hfind, sort_line]
  cases lines.find? fun l => decide (l.order ≤ 0) with
  | some l => rfl
  | none => exact ν.ofSorted_line _

end Renaming

/-! ## Runs -/

open Writer (Unfailing)

variable {ρ σ : Type} {ν : Renaming} {p : Program} {is : List Instruction}

/-- Nothing differs but the names. -/
def Likeness.renaming (ν : Renaming) : Likeness := { Likeness.refl with names := ν }

theorem Likeness.level_renaming : (Likeness.renaming ν).Level := ⟨rfl, rfl, rfl, rfl⟩

theorem Program.like_program (ν : Renaming) (p : Program) : p.Like (.renaming ν) (ν.program p) := by
  refine like_of_map rfl rfl fun name => ?_
  change (ν.program p).label (ν.label name) = ν.result id (p.label name)
  simp only [label, Renaming.program, Renaming.lookup_table]
  cases p.labels.lookup name <;> rfl

/-- The state with the variables of all its frames under other names. -/
def Renaming.machine (ν : Renaming) (m : Machine ρ σ) : Machine ρ σ :=
  { m with memory := ν.memory m.memory }

theorem Likeness.machine_renaming (ν : Renaming) (stderr : σ) :
    (Likeness.renaming ν).machine stderr = fun m : Machine ρ σ => { ν.machine m with stderr } := by
  funext m
  simp [Likeness.machine, Likeness.memory, Likeness.renaming, Likeness.refl, Renaming.machine,
    Renaming.memory]

/-- Texts that a break dumps in a state and in the state under other names. -/
def DumpRenamed (ν : Renaming) (ρ σ : Type) (o : Int64) (text text' : String) : Prop :=
  ∃ a : Machine ρ σ, text = a.dump o ∧ text' = (ν.machine a).dump o

variable [Writer σ]

theorem Machine.like_machine (ν : Renaming) {m : Machine ρ σ} (h : Unfailing m.stderr) :
    m.Like (.renaming ν) (ν.machine m) where
  memory := by
    simp [Renaming.machine, Likeness.memory, Likeness.renaming, Likeness.refl, Renaming.memory]
  calls := by simp [Renaming.machine, Likeness.renaming, Likeness.refl]
  operands := by simp [Renaming.machine, Likeness.renaming, Likeness.refl]
  pc := rfl
  completed := by simp [Renaming.machine, Likeness.renaming, Likeness.refl]
  input := rfl
  stdout := rfl
  unfailing := h
  unfailing' := h

theorem Likeness.Dumps.renamed {o : Int64} {text text' : String}
    (h : (Likeness.renaming ν).Dumps ρ σ o text text') : DumpRenamed ν ρ σ o text text' := by
  obtain ⟨a, b, hab, rfl, rfl⟩ := h
  refine ⟨a, rfl, ?_⟩
  have hb := hab.eq_machine
  rw [Likeness.machine_renaming] at hb
  rw [hb]
  rfl

variable [Reader ρ] {m : Machine ρ σ}

namespace Machine

theorem run_program (herr : Unfailing m.stderr) (n : Nat) :
    (ν.machine m).run (ν.program p) n = (m.run p n).map ν.fault fun a =>
      { ν.machine a with
        stderr := Writer.after m.stderr
          (Event.handed .err ((ν.machine m).trace (ν.program p) n)) } := by
  have hrun := (like_machine ν herr).run_eq Likeness.level_renaming (Program.like_program ν p) n
  rwa [Likeness.machine_renaming] at hrun

theorem trace_program (herr : Unfailing m.stderr) (n : Nat) :
    Traced id (DumpRenamed ν ρ σ) (m.trace p n) ((ν.machine m).trace (ν.program p) n) := by
  have htrace := (like_machine ν herr).trace Likeness.level_renaming (Program.like_program ν p) n
  exact htrace.mono fun _ _ _ => Likeness.Dumps.renamed

/-- Names are only ever compared. A list with its labels and variables under other names is refused
as the list is, with a fault of the same kind and without anything being read or written; or both
are accepted, and after every number of steps the runs are in the same state but for the names of
the variables in the frames, the names that a fault tells, and the diagnostics. These are what the
values handed to them make of them, and the traces of the two runs are the same but for what breaks
dump. -/
theorem names_only_compared (ν : Renaming) (is : List Instruction) (hm : m.memory = .empty)
    (herr : Unfailing m.stderr) :
    (∀ f, (ν.fault f).kind = f.kind) ∧
      ((∃ f, Program.ofInstructions is = .error f ∧
          Program.ofInstructions (is.map ν.instruction) = .error (ν.fault f) ∧
          ∀ n, m.launch is n = .failed f m ∧
            m.launch (is.map ν.instruction) n = .failed (ν.fault f) m) ∨
        ∃ p q, Program.ofInstructions is = .ok p ∧
          Program.ofInstructions (is.map ν.instruction) = .ok q ∧
          ∀ n, m.launch (is.map ν.instruction) n = (m.launch is n).map ν.fault (fun a =>
              { ν.machine a with
                stderr := Writer.after m.stderr (Event.handed .err (m.trace q n)) }) ∧
            (m.launch is n).machine.stderr =
              Writer.after m.stderr (Event.handed .err (m.trace p n)) ∧
            Traced id (DumpRenamed ν ρ σ) (m.trace p n) (m.trace q n)) := by
  have hsame : ν.machine m = m := by
    have hempty : ν.memory m.memory = m.memory := by
      rw [hm]
      rfl
    rw [Renaming.machine, hempty]
  have hν := ν.ofInstructions_instruction is
  refine ⟨ν.kind_fault, ?_⟩
  cases hp : Program.ofInstructions is with
  | error f =>
    rw [hp] at hν
    exact .inl ⟨f, rfl, hν, fun n => ⟨launch_of_error hp m n, launch_of_error hν m n⟩⟩
  | ok p =>
    rw [hp] at hν
    refine .inr ⟨p, ν.program p, rfl, hν, fun n => ?_⟩
    have hrun := run_program (p := p) (ν := ν) herr n
    have htrace := trace_program (p := p) (ν := ν) herr n
    rw [hsame] at hrun htrace
    rw [launch_of_ok hp, launch_of_ok hν]
    exact ⟨hrun, sink_run p m n .err, htrace⟩

/-- A program that jumps over a line and reads a variable that is not declared, with a letter put
before each of its names. -/
theorem names_only_compared_lettered :
    ∃ (q : Program) (b : Machine),
      Program.ofInstructions [⟨1, .defVar, [.symbol (.var ⟨.gf, "vx"⟩)]⟩,
        ⟨2, .jump, [.label "lend"]⟩, ⟨3, .brk, []⟩, ⟨4, .label, [.label "lend"]⟩,
        ⟨5, .write, [.symbol (.var ⟨.gf, "vy"⟩)]⟩] = .ok q ∧
      (start ⟨[]⟩ (.empty none) (.empty none)).run q 9 = .failed (.variableMissing "vy") b ∧
      b.memory.global.entries = [("vx", .uninit)] ∧ b.completed = 3 := by
  let ν : Renaming :=
    ⟨("l" ++ ·), ("v" ++ ·), fun a b h => by simpa using h, fun a b h => by simpa using h⟩
  let p : Program := ⟨#[⟨1, .defVar ⟨.gf, "x"⟩⟩, ⟨2, .jump "end"⟩, ⟨3, .brk⟩, ⟨4, .label "end"⟩,
    ⟨5, .write (.var ⟨.gf, "y"⟩)⟩], [("end", 3)]⟩
  have hp : Program.ofInstructions p.instructions = .ok p :=
    Program.ofInstructions_of_perm p.lines.toList (.refl _) (by decide) (by decide) rfl
  let m : Machine := start ⟨[]⟩ (.empty none) (.empty none)
  have herr : Unfailing m.stderr := Sink.unfailing_of_unlimited rfl
  obtain ⟨_, ⟨f, hf, _⟩ | ⟨p', q, hp', hq, h⟩⟩ := names_only_compared ν p.instructions rfl herr
  · cases hf.symm.trans hp
  · cases hp'.symm.trans hp
    obtain ⟨hrun, _⟩ := h 9
    rw [launch_of_ok hp, launch_of_ok hq] at hrun
    exact ⟨q, _, hq, hrun, rfl, rfl⟩

end Machine

end Ippcode
