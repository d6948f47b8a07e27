import Ippcode.Proofs.Acceptance
import Mathlib.Data.List.Nodup

/-! # Declarations of labels

A list of instructions, whether operands fit and orders rise in it or not, has a label table exactly
if every label instruction in it has a name and no name is declared twice. The table leads each name
that is declared to the position where it is, and has no other names. In any other list something is
wrong at some position, as `DefectAt` says, and the first such position decides the fault. In a
program labels are found by where they stand alone, whatever stands before them and behind them.
-/
namespace Ippcode

namespace Instruction

/-- The instruction at a position declares the name. -/
def LabelAt (is : List Instruction) (k : Nat) (name : String) : Prop :=
  ∃ i, is[k]? = some i ∧ i.Declares name

/-- What is wrong at a position, with the kind of the fault and the fault: a label instruction whose
first operand is no label, or a declaration of a name that is declared before. -/
inductive DefectAt (is : List Instruction) (k : Nat) : FaultKind → Fault → Prop
  | unnamed {i : Instruction} (here : is[k]? = some i) (label : i.opcode = .label)
      (unnamed : ∀ name, i.args.head? ≠ some (.label name)) :
      DefectAt is k .programStructure (.labelWithoutName i.order)
  | again {j : Nat} {name : String} (here : LabelAt is k name) (before : j < k)
      (declared : LabelAt is j name) : DefectAt is k .semantic (.labelExists name)

variable {is pre post : List Instruction} {i : Instruction} {j k : Nat} {a b name : String}
  {kind kind' : FaultKind} {f f' : Fault}

/-! ## Positions -/

theorem LabelAt.declares (h : LabelAt is k name) (hi : is[k]? = some i) : i.Declares name := by
  obtain ⟨i', hi', hname⟩ := h
  obtain rfl : i = i' := Option.some.inj (hi.symm.trans hi')
  exact hname

theorem LabelAt.name_eq (ha : LabelAt is k a) (hb : LabelAt is k b) : a = b := by
  obtain ⟨i, hi, -, ha⟩ := ha
  exact Argument.label.inj (Option.some.inj (ha.symm.trans (hb.declares hi).2))

theorem labelAt_append_left (h : k < pre.length) :
    LabelAt (pre ++ post) k name ↔ LabelAt pre k name := by
  rw [LabelAt, List.getElem?_append_left h, LabelAt]

/-- What is wrong at a position does not depend on what stands behind it. -/
theorem DefectAt.of_append_left (h : DefectAt (pre ++ post) k kind f) (hk : k < pre.length) :
    DefectAt pre k kind f := by
  cases h with
  | unnamed here label unnamed =>
    rw [List.getElem?_append_left hk] at here
    exact .unnamed here label unnamed
  | again here before declared =>
    refine .again ((labelAt_append_left hk).1 here) before ?_
    exact (labelAt_append_left (Nat.lt_trans before hk)).1 declared

theorem DefectAt.kind_eq (h : DefectAt is k kind f) : f.kind = kind := by
  cases h <;> rfl

/-- At one position one thing is wrong at most. -/
theorem DefectAt.fault_eq (h : DefectAt is k kind f) (h' : DefectAt is k kind' f') : f = f' := by
  cases h with
  | @unnamed i here label unnamed =>
    cases h' with
    | @unnamed i' here' =>
      obtain rfl : i = i' := Option.some.inj (here.symm.trans here')
      rfl
    | again here' => exact absurd (here'.declares here).2 (unnamed _)
  | again here =>
    cases h' with
    | unnamed here' label unnamed => exact absurd (here.declares here').2 (unnamed _)
    | again here' => rw [here.name_eq here']

/-- Where every label instruction has a name, there are as many names as label instructions. -/
theorem length_labelNames (h : ∀ i ∈ is, i.opcode = .label → ∃ name, i.Declares name) :
    (labelNames is).length = is.countP (·.opcode = .label) := by
  rw [labelNames, List.length_filterMap_eq_countP]
  refine List.countP_congr fun i hi => ?_
  rw [Option.isSome_iff_exists, decide_eq_true_iff]
  constructor
  · rintro ⟨name, hname⟩
    exact (labelName?_eq_some_iff.1 hname).1
  · intro hop
    obtain ⟨name, hname⟩ := h i hi hop
    exact ⟨name, labelName?_eq_some_iff.2 hname⟩

end Instruction

open Instruction

namespace LabelTable

variable {table t : LabelTable} {is : List Instruction} {k : Nat} {kind : FaultKind} {f : Fault}

/-! ## Tables -/

theorem exists_declares_of_extend (h : extend table k is = .ok t) :
    ∀ i ∈ is, i.opcode = .label → ∃ name, i.Declares name := by
  fun_induction extend table k is with
  | case1 => simp
  | case2 | case4 => cases h
  | case3 table k order rest name args _ ih =>
    exact List.forall_mem_cons.2 ⟨fun _ => ⟨name, rfl, rfl⟩, ih h⟩
  | case5 table k i rest hi ih =>
    refine List.forall_mem_cons.2 ⟨fun hop => ?_, ih h⟩
    exact absurd (by rw [← hop]) (hi i.order i.args)

/-- Names are added one by one, in front of those that are there. -/
theorem map_fst_extend (h : extend table k is = .ok t) :
    t.map Prod.fst = (labelNames is).reverse ++ table.map Prod.fst := by
  fun_induction extend table k is with
  | case1 =>
    cases h
    rfl
  | case2 | case4 => cases h
  | case3 table k order rest name args _ ih =>
    have hnames : labelNames (⟨order, .label, .label name :: args⟩ :: rest) =
        name :: labelNames rest := rfl
    rw [ih h, hnames, List.reverse_cons, List.append_assoc]
    rfl
  | case5 table k i rest hi ih =>
    have hnone : i.labelName? = none := by
      rw [Option.eq_none_iff_forall_ne_some]
      intro name hname
      exact hi i.order i.args (by rw [← (labelName?_eq_some_iff.1 hname).1])
    rw [ih h, labelNames, labelNames, List.filterMap_cons_none hnone]

theorem map_fst_ofInstructions (h : ofInstructions is = .ok t) :
    t.map Prod.fst = (labelNames is).reverse := by
  rw [map_fst_extend h, List.map_nil, List.append_nil]

theorem nodup_map_fst (h : ofInstructions is = .ok t) : (t.map Prod.fst).Nodup := by
  rw [map_fst_ofInstructions h, List.nodup_reverse]
  exact nodup_labelNames h

theorem length_eq_countP (h : ofInstructions is = .ok t) :
    t.length = is.countP (·.opcode = .label) := by
  have hnames := congrArg List.length (map_fst_ofInstructions h)
  rw [List.length_map, List.length_reverse] at hnames
  rw [hnames, length_labelNames (exists_declares_of_extend h)]

/-! ## Faults -/

theorem not_defectAt_of_ok (h : ofInstructions is = .ok t) : ¬ DefectAt is k kind f := by
  intro hdefect
  cases hdefect with
  | unnamed here label unnamed =>
    obtain ⟨name, -, hname⟩ :=
      exists_declares_of_extend h _ (List.mem_of_getElem? here) label
    exact unnamed name hname
  | @again j name here before declared =>
    have hj : t.lookup name = some j := (lookup_ofInstructions h name j).2 declared
    have hk : t.lookup name = some k := (lookup_ofInstructions h name k).2 here
    exact Nat.ne_of_lt before (Option.some.inj (hj.symm.trans hk))

theorem exists_firstDefect_of_error (h : ofInstructions is = .error f) :
    ∃ k, DefectAt is k f.kind f ∧ ∀ j < k, ∀ kind g, ¬ DefectAt is j kind g := by
  obtain ⟨pre, i, post, t, rfl, ht, hwrong⟩ := exists_wrong_of_extend h
  have hhere : (pre ++ i :: post)[pre.length]? = some i := by simp
  refine ⟨pre.length, ?_, ?_⟩
  · cases hwrong with
    | unnamed hop hnone =>
      exact .unnamed hhere hop fun name hname => hnone name ⟨hop, hname⟩
    | again hdeclares hknown =>
      obtain ⟨j, hj⟩ := Option.isSome_iff_exists.1 hknown
      obtain hlabel : LabelAt pre j _ := (lookup_ofInstructions ht _ j).1 hj
      have hlt : j < pre.length := by
        obtain ⟨i', hi', -⟩ := hlabel
        exact (List.getElem?_eq_some_iff.1 hi').1
      exact .again ⟨i, hhere, hdeclares⟩ hlt ((labelAt_append_left hlt).2 hlabel)
  · -- the instructions before the one at fault have a table, so nothing is wrong with them
    intro j hj kind g hdefect
    exact not_defectAt_of_ok ht (hdefect.of_append_left hj)

theorem exists_ok_iff :
    (∃ t, ofInstructions is = .ok t) ↔
      (∀ i ∈ is, i.opcode = .label → ∃ name, i.args.head? = some (.label name)) ∧
        ∀ j k name, LabelAt is j name → LabelAt is k name → j = k := by
  constructor
  · rintro ⟨t, ht⟩
    refine ⟨fun i hi hop => ?_, fun j k name hj hk => ?_⟩
    · obtain ⟨name, -, hname⟩ := exists_declares_of_extend ht i hi hop
      exact ⟨name, hname⟩
    · have hlookup := (lookup_ofInstructions ht name j).2 hj
      exact Option.some.inj (hlookup.symm.trans ((lookup_ofInstructions ht name k).2 hk))
  · rintro ⟨hnamed, hdistinct⟩
    cases h : ofInstructions is with
    | ok t => exact ⟨t, rfl⟩
    | error f =>
      obtain ⟨k, hdefect, -⟩ := exists_firstDefect_of_error h
      generalize f.kind = kind at hdefect
      cases hdefect with
      | unnamed here label unnamed =>
        obtain ⟨name, hname⟩ := hnamed _ (List.mem_of_getElem? here) label
        exact absurd hname (unnamed name)
      | @again j name here before declared =>
        exact absurd (hdistinct j k name declared here) (Nat.ne_of_lt before)

theorem eq_error_iff :
    (ofInstructions is = .error f ∧ f.kind = kind) ↔
      ∃ k, DefectAt is k kind f ∧ ∀ j < k, ∀ kind g, ¬ DefectAt is j kind g := by
  constructor
  · rintro ⟨h, rfl⟩
    exact exists_firstDefect_of_error h
  · rintro ⟨k, hdefect, hfirst⟩
    refine ⟨?_, hdefect.kind_eq⟩
    cases h : ofInstructions is with
    | ok t => exact absurd hdefect (not_defectAt_of_ok h)
    | error g =>
      obtain ⟨k', hdefect', hfirst'⟩ := exists_firstDefect_of_error h
      obtain hlt | rfl | hgt := Nat.lt_trichotomy k k'
      · exact absurd hdefect (hfirst' k hlt _ _)
      · rw [hdefect'.fault_eq hdefect]
      · exact absurd hdefect' (hfirst k' hgt _ _)

end LabelTable

namespace Program

variable {is js : List Instruction} {p q : Program} {k : Nat} {name : String}

/-- The label of the name stands at the position. -/
def Carries (p : Program) (k : Nat) (name : String) : Prop :=
  ∃ order, p.instruction? k = some ⟨order, .label, [.label name]⟩

theorem label_eq_ok_iff_carries (h : ofInstructions is = .ok p) :
    p.label name = .ok k ↔ p.Carries k name := by
  rw [label_eq_ok_iff h]
  constructor
  · rintro ⟨⟨order, c⟩, hline, rfl⟩
    refine ⟨order, ?_⟩
    rw [instruction?, hline]
    rfl
  · rintro ⟨order, hi⟩
    obtain ⟨line, hline, hinstruction⟩ := line?_of_instruction? hi
    exact ⟨line, hline, Line.declares_instruction.1 (hinstruction ▸ ⟨rfl, rfl⟩)⟩

theorem label_eq_labelMissing (h : ofInstructions is = .ok p) (hnone : ∀ k, ¬ p.Carries k name) :
    p.label name = .error (.labelMissing name) := by
  cases hlabel : p.label name with
  | ok k => exact absurd ((label_eq_ok_iff_carries h).1 hlabel) (hnone k)
  | error f =>
    unfold label at hlabel
    split at hlabel <;> cases hlabel
    rfl

/-- Programs with the same labels at the same positions find the same labels. -/
theorem label_eq_of_carries (hp : ofInstructions is = .ok p) (hq : ofInstructions js = .ok q)
    (h : ∀ k name, p.Carries k name ↔ q.Carries k name) : p.label = q.label := by
  funext name
  by_cases hname : ∃ k, p.Carries k name
  · obtain ⟨k, hk⟩ := hname
    rw [(label_eq_ok_iff_carries hp).2 hk, (label_eq_ok_iff_carries hq).2 ((h k name).1 hk)]
  · have hnone := not_exists.1 hname
    rw [label_eq_labelMissing hp hnone,
      label_eq_labelMissing hq fun k hk => hnone k ((h k name).2 hk)]

end Program

/-- A list of instructions has a label table exactly if every label instruction has a label for its
first operand and no name is declared at two positions. The table then leads a name to a position
exactly if the name is declared there, so that no two names lead to one position and there are as
many names, each of them once, as label instructions. Any other list has the fault of the first
position where something is wrong. So a program that was accepted finds a label exactly where it
stands, whatever else stands before it or behind it, and no other label. -/
theorem tables_hold_declarations (is : List Instruction) :
    ((∃ t, LabelTable.ofInstructions is = .ok t) ↔
      (∀ i ∈ is, i.opcode = .label → ∃ name, i.args.head? = some (.label name)) ∧
        ∀ j k name, LabelAt is j name → LabelAt is k name → j = k) ∧
    (∀ t, LabelTable.ofInstructions is = .ok t →
      (∀ name k, t.lookup name = some k ↔ LabelAt is k name) ∧
      (∀ a b k, t.lookup a = some k → t.lookup b = some k → a = b) ∧
      (t.map Prod.fst).Nodup ∧ t.length = is.countP (·.opcode = .label)) ∧
    (∀ kind f, (LabelTable.ofInstructions is = .error f ∧ f.kind = kind) ↔
      ∃ k, DefectAt is k kind f ∧ ∀ j < k, ∀ kind g, ¬ DefectAt is j kind g) ∧
    ∀ p, Program.ofInstructions is = .ok p →
      (∀ name k, p.label name = .ok k ↔ p.Carries k name) ∧
      (∀ name, (∀ k, ¬ p.Carries k name) →
        p.label name = .error (.labelMissing name) ∧ (Fault.labelMissing name).kind = .semantic) ∧
      ∀ q js, Program.ofInstructions js = .ok q →
        (∀ k name, p.Carries k name ↔ q.Carries k name) → p.label = q.label := by
  refine ⟨LabelTable.exists_ok_iff, ?_, fun _ _ => LabelTable.eq_error_iff, ?_⟩
  · intro t ht
    have hlookup := LabelTable.lookup_ofInstructions ht
    refine ⟨hlookup, ?_, LabelTable.nodup_map_fst ht, LabelTable.length_eq_countP ht⟩
    intro a b k ha hb
    have hlabel : LabelAt is k a := (hlookup a k).1 ha
    exact hlabel.name_eq ((hlookup b k).1 hb)
  · intro p hp
    refine ⟨fun name k => Program.label_eq_ok_iff_carries hp, ?_, ?_⟩
    · intro name hnone
      exact ⟨Program.label_eq_labelMissing hp hnone, rfl⟩
    · intro q js hq hcarries
      exact Program.label_eq_of_carries hp hq hcarries

/-- Orders that fall, an operand too many and one too few make no difference to a table. Of two
things that are wrong the first one counts, and a program finds its label from either side. -/
theorem tables_hold_declarations_unchecked :
    let is : List Instruction := [⟨7, .jump, [.label "b"]⟩, ⟨-3, .label, [.label "a", .type .int]⟩,
      ⟨7, .move, []⟩, ⟨0, .label, [.label "b"]⟩, ⟨-5, .call, [.label "a"]⟩]
    let again : List Instruction :=
      [⟨3, .label, [.label "a"]⟩, ⟨2, .label, [.label "a"]⟩, ⟨1, .label, []⟩]
    let p : Program := ⟨#[⟨10, .call "f"⟩, ⟨20, .label "f"⟩, ⟨30, .jump "f"⟩], [("f", 1)]⟩
    let q : Program := ⟨#[⟨1, .brk⟩, ⟨2, .label "f"⟩], [("f", 1)]⟩
    (∃ t, LabelTable.ofInstructions is = .ok t ∧ t.lookup "a" = some 1 ∧ t.lookup "b" = some 3 ∧
      t.length = 2) ∧
      LabelTable.ofInstructions again = .error (.labelExists "a") ∧
      Program.ofInstructions [⟨30, .jump, [.label "f"]⟩, ⟨20, .label, [.label "f"]⟩,
        ⟨10, .call, [.label "f"]⟩] = .ok p ∧
      p.label "f" = .ok 1 ∧ p.label "g" = .error (.labelMissing "g") ∧ p.label = q.label := by
  intro is again p q
  have ht : LabelTable.ofInstructions is = .ok [("b", 3), ("a", 1)] := rfl
  obtain ⟨-, htable, -, -⟩ := tables_hold_declarations is
  obtain ⟨hlookup, -, -, hlength⟩ := htable _ ht
  obtain ⟨-, -, herror, -⟩ := tables_hold_declarations again
  have hp : Program.ofInstructions [⟨30, .jump, [.label "f"]⟩, ⟨20, .label, [.label "f"]⟩,
      ⟨10, .call, [.label "f"]⟩] = .ok p :=
    Program.ofInstructions_of_perm [⟨30, .jump "f"⟩, ⟨20, .label "f"⟩, ⟨10, .call "f"⟩]
      (by decide) (by decide) (by decide) rfl
  have hq : Program.ofInstructions [⟨2, .label, [.label "f"]⟩, ⟨1, .brk, []⟩] = .ok q :=
    Program.ofInstructions_of_perm [⟨2, .label "f"⟩, ⟨1, .brk⟩] (by decide) (by decide) (by decide)
      rfl
  have hcarries : ∀ k name, p.Carries k name ↔ q.Carries k name := by
    intro k name
    constructor
    · rintro ⟨order, h⟩
      rcases k with _ | _ | _ | k <;> cases h
      exact ⟨2, rfl⟩
    · rintro ⟨order, h⟩
      rcases k with _ | _ | k <;> cases h
      exact ⟨20, rfl⟩
  obtain ⟨-, -, -, hprogram⟩ := tables_hold_declarations
    [⟨30, .jump, [.label "f"]⟩, ⟨20, .label, [.label "f"]⟩, ⟨10, .call, [.label "f"]⟩]
  obtain ⟨hfound, hmissing, hsame⟩ := hprogram p hp
  refine ⟨⟨_, ht, (hlookup "a" 1).2 ⟨_, rfl, rfl, rfl⟩, (hlookup "b" 3).2 ⟨_, rfl, rfl, rfl⟩,
    hlength⟩, ?_, hp, (hfound "f" 1).2 ⟨20, rfl⟩, ?_, ?_⟩
  · refine ((herror .semantic _).2 ⟨1, ?_, ?_⟩).1
    · exact .again ⟨_, rfl, rfl, rfl⟩ Nat.zero_lt_one ⟨_, rfl, rfl, rfl⟩
    · intro j hj kind g hdefect
      obtain rfl : j = 0 := by omega
      cases hdefect with
      | unnamed here _ unnamed =>
        cases here
        exact unnamed "a" rfl
      | again _ before => exact absurd before (Nat.not_lt_zero _)
  · refine (hmissing "g" ?_).1
    rintro k ⟨order, h⟩
    rcases k with _ | _ | _ | k
    case succ.zero =>
      have hargs : [Argument.label "f"] = [.label "g"] :=
        congrArg Instruction.args (Option.some.inj h)
      exact absurd hargs (by decide)
    all_goals cases h
  · exact hsame q _ hq hcarries

end Ippcode
