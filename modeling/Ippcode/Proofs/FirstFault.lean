import Ippcode.Proofs.Loading
import Ippcode.Proofs.Rejection

/-! # The fault that loading reports

A document may have many defects, and loading reports one of them. If the text is no document, that
is the fault, whatever else is wrong with it. Then the language decides, and then the first record
that is not that of an instruction, where the opcode decides before the arguments, these from left
to right before their number, and the number before the kinds, these again from left to right.
`Becomes` and `Refused` say this of a record without regard to how it is turned into an instruction.
Orders and labels decide nothing: whatever becomes of a record becomes of it in every document.
-/
namespace Ippcode

/-! ## Operands -/

namespace Instruction

/-- The leftmost operand that may not stand where it stands, and its index. -/
structure LeftmostMisfit (slots : List Slot) (args : List Argument) (k : Nat) (slot : Slot)
    (arg : Argument) : Prop where
  slotAt : slots[k]? = some slot
  argAt : args[k]? = some arg
  misfit : ¬ arg.fits slot
  before : ∀ j s a, j < k → slots[j]? = some s → args[j]? = some a → a.fits s

variable {op : Opcode} {order : Int64} {slots : List Slot} {args : List Argument} {f : Fault}
  {k : Nat} {s slot : Slot} {a arg : Argument}

theorem leftmostMisfit_cons_of_fits (h : a.fits s) :
    LeftmostMisfit (s :: slots) (a :: args) k slot arg ↔
      ∃ j, k = j + 1 ∧ LeftmostMisfit slots args j slot arg := by
  constructor
  · rintro ⟨hslot, harg, hmisfit, hbefore⟩
    cases k with
    | zero =>
      cases hslot
      cases harg
      exact absurd h hmisfit
    | succ j =>
      refine ⟨j, rfl, hslot, harg, hmisfit, ?_⟩
      intro i s a hi hs ha
      exact hbefore (i + 1) s a (Nat.succ_lt_succ hi) hs ha
  · rintro ⟨j, rfl, hslot, harg, hmisfit, hbefore⟩
    refine ⟨hslot, harg, hmisfit, ?_⟩
    intro i s' a' hi hs ha
    cases i with
    | zero =>
      cases hs
      cases ha
      exact h
    | succ i => exact hbefore i s' a' (Nat.lt_of_succ_lt_succ hi) hs ha

theorem leftmostMisfit_cons_of_not_fits (h : ¬ a.fits s) :
    LeftmostMisfit (s :: slots) (a :: args) k slot arg ↔ k = 0 ∧ slot = s ∧ arg = a := by
  constructor
  · rintro ⟨hslot, harg, -, hbefore⟩
    cases k with
    | zero =>
      cases hslot
      cases harg
      exact ⟨rfl, rfl, rfl⟩
    | succ j => exact absurd (hbefore 0 s a (Nat.succ_pos j) rfl rfl) h
  · rintro ⟨rfl, rfl, rfl⟩
    refine ⟨rfl, rfl, h, ?_⟩
    intro j s a hj
    exact absurd hj (Nat.not_lt_zero j)

/-- Going through the operands finds the leftmost one that does not fit. -/
theorem misfit?_eq_some_iff {start : Nat} :
    misfit? op order start slots args = some f ↔
      ∃ k slot arg, LeftmostMisfit slots args k slot arg ∧
        f = .operandKind op order (start + k) slot arg.kind := by
  induction slots generalizing start args with
  | nil =>
    refine ⟨fun h => (by cases h), ?_⟩
    rintro ⟨k, slot, arg, h, -⟩
    cases h.slotAt
  | cons s slots ih =>
    cases args with
    | nil =>
      refine ⟨fun h => (by cases h), ?_⟩
      rintro ⟨k, slot, arg, h, -⟩
      cases h.argAt
    | cons a args =>
      by_cases hfits : a.fits s
      · rw [misfit?, if_pos hfits, ih]
        constructor
        · rintro ⟨k, slot, arg, h, rfl⟩
          refine ⟨k + 1, slot, arg, (leftmostMisfit_cons_of_fits hfits).2 ⟨k, rfl, h⟩, ?_⟩
          rw [Nat.add_assoc, Nat.add_comm 1 k]
        · rintro ⟨k, slot, arg, h, rfl⟩
          obtain ⟨j, rfl, hj⟩ := (leftmostMisfit_cons_of_fits hfits).1 h
          refine ⟨j, slot, arg, hj, ?_⟩
          rw [Nat.add_assoc, Nat.add_comm 1 j]
      · rw [misfit?, if_neg hfits, Option.some.injEq]
        constructor
        · rintro rfl
          exact ⟨0, s, a, (leftmostMisfit_cons_of_not_fits hfits).2 ⟨rfl, rfl, rfl⟩, rfl⟩
        · rintro ⟨k, slot, arg, h, rfl⟩
          obtain ⟨rfl, rfl, rfl⟩ := (leftmostMisfit_cons_of_not_fits hfits).1 h
          rfl

theorem make_eq_error_iff :
    make order op args = .error f ↔ (⟨order, op, args⟩ : Instruction).fault? = some f := by
  simp only [make]
  split
  next g hg => rw [hg, Except.error.injEq, Option.some.injEq]
  next hnone => simp [hnone]

theorem allFit_iff_forall₂ :
    allFit args slots ↔ List.Forall₂ (fun (a : Argument) s => a.fits s) args slots := by
  induction slots generalizing args with
  | nil => rw [allFit_nil, List.forall₂_nil_right_iff]
  | cons s slots ih =>
    rw [allFit_cons, List.forall₂_cons_right_iff]
    simp only [ih]

end Instruction

/-! ## Records -/

namespace Document

open Instruction

/-- The arguments that records of arguments denote. -/
def Denoted (records : List ArgumentRecord) (args : List Argument) : Prop :=
  List.Forall₂ (fun r a => Argument.ofText r.kind r.value = .ok a) records args

namespace InstructionRecord

/-- The record names the opcode, in letters of either case and with blanks around it or not. -/
def HasOpcode (r : InstructionRecord) (op : Opcode) : Prop :=
  Text.sameLetters op.name (Text.trim r.opcode)

instance (r : InstructionRecord) (op : Opcode) : Decidable (r.HasOpcode op) :=
  inferInstanceAs (Decidable (Text.sameLetters op.name (Text.trim r.opcode) = true))

/-- The record is that of the instruction. -/
structure Becomes (r : InstructionRecord) (i : Instruction) : Prop where
  order : i.order = r.order
  opcode : r.HasOpcode i.opcode
  args : Denoted r.args i.args
  fits : List.Forall₂ (fun (a : Argument) s => a.fits s) i.args i.opcode.slots

/-- What is wrong with a record, which is the first that holds of: an unknown opcode, an argument
that denotes nothing, a wrong number of operands, an operand of a wrong kind. -/
inductive Refused (r : InstructionRecord) : Fault → Prop
  | opcode (unknown : ∀ op, ¬ r.HasOpcode op) : Refused r (.unknownOpcode r.opcode r.order)
  | argument {op : Opcode} {pre post : List ArgumentRecord} {a : ArgumentRecord} {f : Fault}
      (opcode : r.HasOpcode op) (split : r.args = pre ++ a :: post)
      (before : ∀ b ∈ pre, ∃ x, Argument.ofText b.kind b.value = .ok x)
      (fault : Argument.ofText a.kind a.value = .error f) : Refused r f
  | count {op : Opcode} {args : List Argument} (opcode : r.HasOpcode op)
      (denoted : Denoted r.args args) (count : args.length ≠ op.slots.length) :
      Refused r (.operandCount op r.order op.slots.length args.length)
  | kind {op : Opcode} {args : List Argument} {k : Nat} {slot : Slot} {arg : Argument}
      (opcode : r.HasOpcode op) (denoted : Denoted r.args args)
      (count : args.length = op.slots.length)
      (first : LeftmostMisfit op.slots args k slot arg) :
      Refused r (.operandKind op r.order (k + 1) slot arg.kind)

variable {r : InstructionRecord} {op : Opcode} {i : Instruction} {f : Fault}

theorem instruction_of_unknown (h : ∀ op, ¬ r.HasOpcode op) :
    r.instruction = .error (.unknownOpcode r.opcode r.order) := by
  have hnone : Opcode.ofName? (Text.trim r.opcode) = none := by
    rw [Option.eq_none_iff_forall_not_mem]
    exact fun op hop => h op (Opcode.ofName?_eq_some_iff.1 hop)
  rw [instruction, hnone]

theorem instruction_of_opcode (h : r.HasOpcode op) :
    r.instruction =
      (r.args.mapM fun a => Argument.ofText a.kind a.value) >>= Instruction.make r.order op := by
  rw [instruction, Opcode.ofName?_eq_some_iff.2 h]

theorem instruction_eq_ok_iff : r.instruction = .ok i ↔ r.Becomes i := by
  constructor
  · intro h
    by_cases hop : ∃ op, r.HasOpcode op
    · obtain ⟨op, hop⟩ := hop
      rw [instruction_of_opcode hop] at h
      obtain ⟨args, hargs, hmake⟩ := Except.bind_eq_ok.1 h
      obtain ⟨rfl, hfits⟩ := make_eq_ok_iff.1 hmake
      exact ⟨rfl, hop, Except.mapM_eq_ok_iff.1 hargs,
        allFit_iff_forall₂.1 (fault?_eq_none_iff.1 hfits)⟩
    · rw [instruction_of_unknown (not_exists.1 hop)] at h
      cases h
  · rintro ⟨horder, hopcode, hargs, hfits⟩
    rw [instruction_of_opcode hopcode]
    refine Except.bind_eq_ok.2 ⟨i.args, Except.mapM_eq_ok_iff.2 hargs, make_eq_ok_iff.2 ⟨?_, ?_⟩⟩
    · rw [← horder]
    · exact fault?_eq_none_iff.2 (allFit_iff_forall₂.2 hfits)

theorem refused_of_instruction (h : r.instruction = .error f) : r.Refused f := by
  by_cases hop : ∃ op, r.HasOpcode op
  · obtain ⟨op, hop⟩ := hop
    rw [instruction_of_opcode hop] at h
    rcases Except.bind_eq_error.1 h with hargs | ⟨args, hargs, hmake⟩
    · obtain ⟨pre, a, post, split, before, fault⟩ := Except.mapM_eq_error_iff.1 hargs
      exact .argument hop split before fault
    · -- operands are counted and compared with their positions only when all arguments are read
      have denoted : Denoted r.args args := Except.mapM_eq_ok_iff.1 hargs
      have hfault := make_eq_error_iff.1 hmake
      rw [fault?] at hfault
      by_cases count : args.length = op.slots.length
      · rw [if_pos count] at hfault
        obtain ⟨k, slot, arg, first, rfl⟩ := misfit?_eq_some_iff.1 hfault
        rw [Nat.add_comm 1 k]
        exact .kind hop denoted count first
      · rw [if_neg count] at hfault
        cases hfault
        exact .count hop denoted count
  · rw [instruction_of_unknown (not_exists.1 hop)] at h
    cases h
    exact .opcode (not_exists.1 hop)

theorem instruction_of_refused (h : r.Refused f) : r.instruction = .error f := by
  cases h with
  | opcode unknown => exact instruction_of_unknown unknown
  | argument opcode split before fault =>
    rw [instruction_of_opcode opcode]
    have hargs := Except.mapM_eq_error_iff.2 ⟨_, _, _, split, before, fault⟩
    exact Except.bind_eq_error.2 (.inl hargs)
  | @count op args opcode denoted count =>
    rw [instruction_of_opcode opcode]
    refine Except.bind_eq_error.2 (.inr ⟨args, Except.mapM_eq_ok_iff.2 denoted, ?_⟩)
    rw [make_eq_error_iff, fault?]
    exact if_neg count
  | @kind op args k slot arg opcode denoted count first =>
    rw [instruction_of_opcode opcode]
    refine Except.bind_eq_error.2 (.inr ⟨args, Except.mapM_eq_ok_iff.2 denoted, ?_⟩)
    rw [make_eq_error_iff, fault?]
    refine (if_pos count).trans (misfit?_eq_some_iff.2 ⟨k, slot, arg, first, ?_⟩)
    rw [Nat.add_comm k 1]

theorem instruction_eq_error_iff : r.instruction = .error f ↔ r.Refused f :=
  ⟨refused_of_instruction, instruction_of_refused⟩

/-- Whether a record is that of an instruction does not depend on its order. -/
theorem exists_becomes_of_eq {r' : InstructionRecord} (hopcode : r'.opcode = r.opcode)
    (hargs : r'.args = r.args) (h : ∃ i, r.Becomes i) : ∃ i, r'.Becomes i := by
  obtain ⟨i, -, opcode, args, fits⟩ := h
  refine ⟨⟨r'.order, i.opcode, i.args⟩, rfl, ?_, hargs ▸ args, fits⟩
  rw [HasOpcode, hopcode]
  exact opcode

end InstructionRecord

/-! ## Documents -/

open InstructionRecord (Becomes)

/-- The text is that of the document. -/
def Deserializes (text : String) (d : Document) : Prop :=
  ∃ j, Json.parse? text = some j ∧ ofJson? j = some d

/-- The document names no language, or this one in letters of either case. -/
def Supported (d : Document) : Prop :=
  ∀ name, d.language = some name → Text.sameLetters name "IPPcode24"

variable {text : String} {d : Document} {is : List Instruction} {f : Fault}

theorem ofText_eq_ok_iff : ofText text = .ok d ↔ Deserializes text d := by
  unfold ofText Deserializes
  cases Json.parse? text with
  | none => simp
  | some j => cases hd : ofJson? j <;> simp [hd]

theorem loadText_of_deserializes (h : Deserializes text d) : loadText text = d.load := by
  rw [loadText, ofText_eq_ok_iff.2 h]
  rfl

theorem checkLanguage_of_supported (h : d.Supported) : d.checkLanguage = .ok () := by
  unfold checkLanguage
  cases hname : d.language with
  | none => rfl
  | some name => exact if_pos (h name hname)

theorem load_of_supported (h : d.Supported) :
    d.load = d.instructions.mapM InstructionRecord.instruction := by
  rw [load, checkLanguage_of_supported h]
  rfl

theorem load_of_not_sameLetters {name : String} (hname : d.language = some name)
    (h : ¬ Text.sameLetters name "IPPcode24") : d.load = .error (.unsupportedLanguage name) := by
  have hcheck : d.checkLanguage = .error (.unsupportedLanguage name) := by
    unfold checkLanguage
    rw [hname]
    exact if_neg h
  rw [load, hcheck]
  rfl

theorem supported_of_load (h : d.load = .ok is) : d.Supported := by
  intro name hname
  by_contra hne
  rw [load_of_not_sameLetters hname hne] at h
  cases h

theorem load_eq_ok_iff (h : d.Supported) :
    d.load = .ok is ↔ List.Forall₂ Becomes d.instructions is := by
  simp only [load_of_supported h, Except.mapM_eq_ok_iff, InstructionRecord.instruction_eq_ok_iff]

theorem exists_load_iff (h : d.Supported) :
    (∃ is, d.load = .ok is) ↔ ∀ r ∈ d.instructions, ∃ i, r.Becomes i := by
  simp only [load_of_supported h, Except.exists_mapM_iff, InstructionRecord.instruction_eq_ok_iff]

theorem load_eq_error_iff (h : d.Supported) :
    d.load = .error f ↔
      ∃ (pre : List InstructionRecord) (r : InstructionRecord) (post : List InstructionRecord),
        d.instructions = pre ++ r :: post ∧ (∀ s ∈ pre, ∃ i, s.Becomes i) ∧ r.Refused f := by
  simp only [load_of_supported h, Except.mapM_eq_error_iff, InstructionRecord.instruction_eq_ok_iff,
    InstructionRecord.instruction_eq_error_iff]

/-- A text is loaded as its document is, and is malformed exactly if it is that of none. -/
theorem malformed_iff :
    (∃ f, loadText text = .error f ∧ f.kind = .sourceFormat) ↔ ¬ ∃ d, Deserializes text d := by
  constructor
  · rintro ⟨f, hf, hkind⟩ ⟨d, hd⟩
    rw [loadText_of_deserializes hd] at hf
    rw [kind_of_load hf] at hkind
    cases hkind
  · intro h
    cases hd : ofText text with
    | ok d => exact absurd ⟨d, ofText_eq_ok_iff.1 hd⟩ h
    | error f =>
      refine ⟨f, ?_, kind_of_ofText hd⟩
      rw [loadText, hd]
      rfl

/-- A document that has of each record another one with the same opcode and arguments is loaded if
that one is. -/
theorem exists_load_of_records {d' : Document} (hlanguage : d'.language = d.language)
    (hrecords : ∀ r' ∈ d'.instructions,
      ∃ r ∈ d.instructions, r'.opcode = r.opcode ∧ r'.args = r.args)
    (h : ∃ is, d.load = .ok is) : ∃ is, d'.load = .ok is := by
  obtain ⟨is, his⟩ := h
  have hsupported : d.Supported := supported_of_load his
  have hsupported' : d'.Supported := fun name hname => hsupported name (hlanguage ▸ hname)
  rw [exists_load_iff hsupported']
  intro r' hr'
  obtain ⟨r, hr, hopcode, hargs⟩ := hrecords r' hr'
  exact InstructionRecord.exists_becomes_of_eq hopcode hargs
    ((exists_load_iff hsupported).1 ⟨is, his⟩ r hr)

/-- Loading a text fails with a malformed document exactly if the text is that of none, and then the
text of a document that names another language fails for this. Any other text is loaded exactly if
every record is that of an instruction, as these instructions in the same order, and fails otherwise
with what is wrong with the first record that is not. All faults but the first are faults of
structure, and no order, and nothing that occurs again or is left out, makes loading fail. -/
theorem loading_reports_first_fault (text : String) :
    ((∃ f, loadText text = .error f ∧ f.kind = .sourceFormat) ↔ ¬ ∃ d, Deserializes text d) ∧
    ∀ d, Deserializes text d →
      (∀ name, d.language = some name → ¬ Text.sameLetters name "IPPcode24" →
        loadText text = .error (.unsupportedLanguage name)) ∧
      (d.Supported →
        ((∃ is, loadText text = .ok is) ↔ ∀ r ∈ d.instructions, ∃ i, r.Becomes i) ∧
        (∀ is, loadText text = .ok is ↔ List.Forall₂ Becomes d.instructions is) ∧
        ∀ f, loadText text = .error f ↔
          ∃ (pre : List InstructionRecord) (r : InstructionRecord) (post : List InstructionRecord),
            d.instructions = pre ++ r :: post ∧ (∀ s ∈ pre, ∃ i, s.Becomes i) ∧ r.Refused f) ∧
      (∀ f, loadText text = .error f → f.kind = .programStructure) ∧
      ∀ text' d', Deserializes text' d' → d'.language = d.language →
        (∀ r' ∈ d'.instructions, ∃ r ∈ d.instructions, r'.opcode = r.opcode ∧ r'.args = r.args) →
        (∃ is, loadText text = .ok is) → ∃ is, loadText text' = .ok is := by
  refine ⟨malformed_iff, fun d hd => ?_⟩
  rw [loadText_of_deserializes hd]
  refine ⟨fun name => load_of_not_sameLetters, ?_, fun f => kind_of_load, ?_⟩
  · intro hsupported
    exact ⟨exists_load_iff hsupported, fun is => load_eq_ok_iff hsupported,
      fun f => load_eq_error_iff hsupported⟩
  · intro text' d' hd' hlanguage hrecords h
    rw [loadText_of_deserializes hd']
    exact exists_load_of_records hlanguage hrecords h

/-- Two labels of one name and one order are no defect. The third record has a constant for its
destination, two arguments that denote nothing and a record with an unknown opcode behind it; the
left one of the two arguments is reported. -/
theorem loading_reports_first_fault_argument :
    let text := "[\"ippCODE24\",[[0,\"label\",[[\"label\",\"x\"]]],"
      ++ "[0,\"label\",[[\"label\",\"x\"]]],"
      ++ "[-5,\"ADD\",[[\"int\",\"1\"],[\"int\",\"z\"],[\"bool\",\"q\"]]],[7,\"NOP\"]]]"
    (∃ d, Deserializes text d ∧ d.Supported) ∧
      loadText text = .error (.invalidLiteral "int" "z") := by
  intro text
  let label : InstructionRecord := ⟨0, "label", [⟨"label", "x"⟩]⟩
  let add : InstructionRecord := ⟨-5, "ADD", [⟨"int", "1"⟩, ⟨"int", "z"⟩, ⟨"bool", "q"⟩]⟩
  let d : Document := ⟨some "ippCODE24", [label, label, add, ⟨7, "NOP", []⟩]⟩
  have hd : Deserializes text d := ofText_eq_ok_iff.1 (by decide +kernel)
  have hsupported : d.Supported := by
    rintro name hname
    cases hname
    decide +kernel
  have hlabel : ∃ i, label.Becomes i := by
    refine ⟨⟨0, .label, [.label "x"]⟩, rfl, by decide +kernel, ?_, ?_⟩
    · exact .cons (by decide +kernel) .nil
    · exact .cons rfl .nil
  have hadd : add.Refused (.invalidLiteral "int" "z") := by
    have hopcode : add.HasOpcode .add := by decide +kernel
    have hsplit : add.args = [⟨"int", "1"⟩] ++ ⟨"int", "z"⟩ :: [⟨"bool", "q"⟩] := rfl
    refine .argument hopcode hsplit ?_ (by decide +kernel)
    exact List.forall_mem_singleton.2 ⟨.const (.int 1), by decide +kernel⟩
  obtain ⟨_, hload, _⟩ := (loading_reports_first_fault text).2 d hd
  refine ⟨⟨d, hd, hsupported⟩, ((hload hsupported).2.2 _).2 ?_⟩
  refine ⟨[label, label], add, [⟨7, "NOP", []⟩], rfl, ?_, hadd⟩
  exact List.forall_mem_cons.2 ⟨hlabel, List.forall_mem_singleton.2 hlabel⟩

end Document

end Ippcode
