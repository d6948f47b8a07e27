import Ippcode.Proofs.Labels

/-! # Accepted programs

What is known of a program once a list of instructions has been accepted: it holds the records of
the list, sorted, and its table leads each name to the line that carries it.
-/
namespace Ippcode

theorem Command.allFit_args (c : Command) : Instruction.allFit c.args c.opcode.slots := by
  cases c with
  | unary op => cases op <;> simp [args, opcode, UnaryOp.opcode, Opcode.slots]
  | binary op => cases op <;> simp [args, opcode, BinaryOp.opcode, Opcode.slots]
  | jumpIf equal => cases equal <;> simp [args, opcode, Opcode.slots]
  | _ => simp [args, opcode, Opcode.slots]

theorem Command.eq_of_parts {c d : Command} (hop : c.opcode = d.opcode) (hargs : c.args = d.args) :
    c = d := by
  have h : ofParts? c.opcode c.args = some d := by rw [hop, hargs, ofParts?_opcode_args]
  exact Option.some.inj ((ofParts?_opcode_args c).symm.trans h)

/-- An opcode that takes no operands has one command. -/
theorem Command.eq_of_opcode {c d : Command} (hop : c.opcode = d.opcode)
    (hslots : d.opcode.slots = []) : c = d := by
  have hc := c.allFit_args
  have hd := d.allFit_args
  rw [hop, hslots] at hc
  rw [hslots] at hd
  exact eq_of_parts hop ((Instruction.allFit_nil.1 hc).trans (Instruction.allFit_nil.1 hd).symm)

namespace Line

theorem instruction_of_ofInstruction {i : Instruction} {l : Line} (h : ofInstruction i = .ok l) :
    l.instruction = i := by
  obtain ⟨c, hc, rfl⟩ := Except.map_eq_ok.1 h
  unfold Instruction.command at hc
  split at hc
  · cases hc
  next hfault =>
    have hsome := Command.isSome_ofParts? (Instruction.fault?_eq_none_iff.1 hfault)
    obtain ⟨ho, ha⟩ := Command.parts_of_ofParts? (Option.some_get hsome).symm
    cases hc
    simp only [instruction, ho, ha]

theorem map_instruction_of_mapM {is : List Instruction} {lines : List Line}
    (h : is.mapM ofInstruction = .ok lines) : lines.map instruction = is := by
  induction is generalizing lines with
  | nil =>
    cases h
    rfl
  | cons i is ih =>
    rw [List.mapM_cons] at h
    obtain ⟨l, hl, h⟩ := Except.bind_eq_ok.1 h
    obtain ⟨rest, hrest, h⟩ := Except.bind_eq_ok.1 h
    cases h
    rw [List.map_cons, instruction_of_ofInstruction hl, ih hrest]

theorem fault?_instruction (l : Line) : l.instruction.fault? = none :=
  Instruction.fault?_eq_none_iff.2 l.command.allFit_args

theorem ofInstruction_instruction (l : Line) : ofInstruction l.instruction = .ok l := by
  unfold ofInstruction Instruction.command
  split
  next f hf => simp [fault?_instruction] at hf
  next => simp [instruction, Except.map]

theorem mapM_map_instruction (lines : List Line) :
    (lines.map instruction).mapM ofInstruction = .ok lines := by
  induction lines with
  | nil => rfl
  | cons l lines ih =>
    rw [List.map_cons, List.mapM_cons, ofInstruction_instruction, ih]
    rfl

theorem repeated?_eq_none {lines : List Line} (h : lines.Pairwise (·.order < ·.order)) :
    repeated? lines = none := by
  induction h with
  | nil => rfl
  | @cons a rest hlt _ ih =>
    cases rest with
    | nil => rfl
    | cons b rest =>
      have hab : a.order < b.order := hlt b List.mem_cons_self
      rw [repeated?, if_neg (Int64.ne_of_lt hab), ih]

theorem eq_of_order_eq {lines : List Line} (h : lines.Pairwise (·.order < ·.order)) {a b : Line}
    (ha : a ∈ lines) (hb : b ∈ lines) (hab : a.order = b.order) : a = b := by
  induction h with
  | nil => cases ha
  | cons hlt _ ih =>
    rcases List.mem_cons.1 ha with rfl | ha'
    · rcases List.mem_cons.1 hb with rfl | hb'
      · rfl
      · exact absurd hab (Int64.ne_of_lt (hlt b hb'))
    · rcases List.mem_cons.1 hb with rfl | hb'
      · exact absurd hab.symm (Int64.ne_of_lt (hlt a ha'))
      · exact ih ha' hb'

theorem sort_perm (lines : List Line) : (sort lines).Perm lines := List.mergeSort_perm lines _

theorem pairwise_sort (lines : List Line) : (sort lines).Pairwise (·.order ≤ ·.order) := by
  have h : (sort lines).Pairwise (fun a b => decide (a.order ≤ b.order)) := by
    apply List.pairwise_mergeSort
    · intro a b c hab hbc
      simp only [decide_eq_true_eq] at hab hbc ⊢
      exact Int64.le_trans hab hbc
    · intro a b
      simp only [Bool.or_eq_true, decide_eq_true_eq]
      exact Int64.le_total a.order b.order
  exact h.imp of_decide_eq_true

/-- Sorting gives the one arrangement that rises in order. -/
theorem sort_eq_of_perm {given lines : List Line} (hperm : given.Perm lines)
    (h : lines.Pairwise (·.order < ·.order)) : sort given = lines := by
  have hsort : (sort given).Perm lines := (sort_perm given).trans hperm
  refine List.Perm.eq_of_pairwise ?_ (pairwise_sort given) (h.imp Int64.le_of_lt) hsort
  intro a b ha hb hab hba
  exact eq_of_order_eq h (hsort.mem_iff.1 ha) hb (Int64.le_antisymm hab hba)

theorem declares_instruction {l : Line} {name : String} :
    l.instruction.Declares name ↔ l.command = .label name := by
  obtain ⟨order, c⟩ := l
  constructor
  · rintro ⟨hop, harg⟩
    cases c with
    | label n =>
      simp only [instruction, Command.args, List.head?_cons, Option.some.injEq,
        Argument.label.injEq] at harg
      rw [harg]
    | unary op | binary op => cases op <;> cases hop
    | jumpIf equal => cases equal <;> cases hop
    | _ => cases hop
  · rintro rfl
    exact ⟨rfl, rfl⟩

end Line

namespace Program

variable {is : List Instruction} {p : Program}

/-- An accepted list has fitting operands, positive and distinct orders and distinct labels, and
the program is made of it as it is sorted. -/
theorem exists_lines_of_ofInstructions (h : ofInstructions is = .ok p) :
    ∃ lines, is.mapM Line.ofInstruction = .ok lines ∧ (∀ l ∈ lines, 0 < l.order) ∧
      Line.repeated? (Line.sort lines) = none ∧ p.lines = (Line.sort lines).toArray ∧
      LabelTable.ofInstructions ((Line.sort lines).map Line.instruction) = .ok p.labels := by
  obtain ⟨lines, hlines, h⟩ := Except.bind_eq_ok.1 h
  cases hf : lines.find? fun l => decide (l.order ≤ 0) with
  | some l => simp [hf] at h
  | none =>
    simp only [hf, ofSorted] at h
    cases hr : Line.repeated? (Line.sort lines) with
    | some order => simp [hr] at h
    | none =>
      simp only [hr] at h
      obtain ⟨labels, hlabels, rfl⟩ := Except.map_eq_ok.1 h
      refine ⟨lines, hlines, ?_, hr, rfl, hlabels⟩
      intro l hl
      simpa using List.find?_eq_none.1 hf l hl

theorem perm_instructions (h : ofInstructions is = .ok p) :
    (p.lines.toList.map Line.instruction).Perm is := by
  obtain ⟨lines, hlines, _, _, hp, _⟩ := exists_lines_of_ofInstructions h
  rw [hp, ← Line.map_instruction_of_mapM hlines]
  exact (Line.sort_perm lines).map Line.instruction

/-- Records of lines in any arrangement are accepted, if the lines have distinct positive orders and
distinct labels, and the program is the lines as they rise in order. -/
theorem ofInstructions_of_perm (given : List Line) {lines : List Line} {labels : LabelTable}
    (hperm : given.Perm lines) (hpos : ∀ l ∈ lines, 0 < l.order)
    (hsorted : lines.Pairwise (·.order < ·.order))
    (hlabels : LabelTable.ofInstructions (lines.map Line.instruction) = .ok labels) :
    ofInstructions (given.map Line.instruction) = .ok ⟨lines.toArray, labels⟩ := by
  have hfind : given.find? (fun l => decide (l.order ≤ 0)) = none := by
    refine List.find?_eq_none.2 ?_
    intro l hl
    have hlt := hpos l (hperm.mem_iff.1 hl)
    simpa using hlt
  unfold ofInstructions
  rw [Line.mapM_map_instruction]
  simp only [bind, Except.bind, hfind, ofSorted, Line.sort_eq_of_perm hperm hsorted,
    Line.repeated?_eq_none hsorted, hlabels]
  rfl

theorem line?_of_instruction? {k : Nat} {i : Instruction} (h : p.instruction? k = some i) :
    ∃ line, p.line? k = some line ∧ line.instruction = i :=
  Option.map_eq_some_iff.1 h

theorem mem_of_instruction? (h : ofInstructions is = .ok p) {k : Nat} {i : Instruction}
    (hi : p.instruction? k = some i) : i ∈ is := by
  obtain ⟨line, hl, rfl⟩ := line?_of_instruction? hi
  have hmem : line ∈ p.lines.toList := by simpa using Array.mem_of_getElem? hl
  exact (perm_instructions h).mem_iff.1 (List.mem_map_of_mem hmem)

/-- In an accepted program a label leads to the line that carries it. -/
theorem label_eq_ok_iff (h : ofInstructions is = .ok p) {name : String} {k : Nat} :
    p.label name = .ok k ↔ ∃ line, p.line? k = some line ∧ line.command = .label name := by
  obtain ⟨lines, _, _, _, hp, hlabels⟩ := exists_lines_of_ofInstructions h
  have hlookup : p.label name = .ok k ↔ p.labels.lookup name = some k := by
    unfold label
    cases p.labels.lookup name <;> simp
  rw [hlookup, LabelTable.lookup_ofInstructions hlabels]
  simp only [line?, hp, List.getElem?_map, Option.map_eq_some_iff, List.getElem?_toArray]
  constructor
  · rintro ⟨_, ⟨line, hline, rfl⟩, hd⟩
    exact ⟨line, hline, Line.declares_instruction.1 hd⟩
  · rintro ⟨line, hline, hc⟩
    exact ⟨_, ⟨line, hline, rfl⟩, Line.declares_instruction.2 hc⟩

theorem line?_lt {k : Nat} {line : Line} (h : p.line? k = some line) : k < p.size :=
  (Array.getElem?_eq_some_iff.1 h).1

theorem line?_eq_none_iff {k : Nat} : p.line? k = none ↔ p.size ≤ k :=
  Array.getElem?_eq_none_iff

end Program

end Ippcode
