import Ippcode.Program
import Ippcode.Proofs.Result

/-! # Label tables

A table that is built from a list of instructions holds exactly the labels of the list, each with
the position at which it stands.
-/
namespace Ippcode

namespace Instruction

def Declares (i : Instruction) (name : String) : Prop :=
  i.opcode = .label ∧ i.args.head? = some (.label name)

/-- Instructions that stand from position `k` on declare the name at position `j`. -/
def DeclaredAt (is : List Instruction) (k : Nat) (name : String) (j : Nat) : Prop :=
  ∃ d i, j = k + d ∧ is[d]? = some i ∧ i.Declares name

theorem declaredAt_nil {k j : Nat} {name : String} : ¬ DeclaredAt [] k name j := by
  rintro ⟨d, i, _, hi, _⟩
  simp at hi

theorem declaredAt_cons {i : Instruction} {is : List Instruction} {k j : Nat} {name : String} :
    DeclaredAt (i :: is) k name j ↔ (j = k ∧ i.Declares name) ∨ DeclaredAt is (k + 1) name j := by
  constructor
  · rintro ⟨d, i', hj, hi, hd⟩
    cases d with
    | zero =>
      cases hi
      exact .inl ⟨hj, hd⟩
    | succ d => exact .inr ⟨d, i', by omega, hi, hd⟩
  · rintro (⟨rfl, hd⟩ | ⟨d, i', rfl, hi, hd⟩)
    · exact ⟨0, i, rfl, rfl, hd⟩
    · exact ⟨d + 1, i', by omega, hi, hd⟩

/-- The name that a label instruction declares. -/
def labelName? : Instruction → Option String
  | ⟨_, .label, .label name :: _⟩ => some name
  | _ => none

def labelNames (is : List Instruction) : List String := is.filterMap labelName?

theorem labelName?_eq_some_iff {i : Instruction} {name : String} :
    i.labelName? = some name ↔ i.Declares name := by
  constructor
  · intro h
    unfold labelName? at h
    split at h
    · cases h
      exact ⟨rfl, rfl⟩
    · cases h
  · obtain ⟨order, op, args⟩ := i
    rintro ⟨rfl, hhead⟩
    obtain ⟨as, rfl⟩ := List.head?_eq_some_iff.1 hhead
    rfl

end Instruction

open Instruction

namespace LabelTable

variable {table t : LabelTable} {k : Nat} {is : List Instruction}

/-- Going on from a table adds exactly the labels that stand behind it. -/
theorem lookup_extend (h : extend table k is = .ok t) (name : String) (j : Nat) :
    t.lookup name = some j ↔ table.lookup name = some j ∨ DeclaredAt is k name j := by
  fun_induction extend table k is with
  | case1 table k =>
    cases h
    simp [declaredAt_nil]
  | case2 | case4 => cases h
  | case3 table k order rest new args hnew ih =>
    rw [ih h, declaredAt_cons, or_assoc.symm]
    refine or_congr_left ?_
    by_cases hn : name = new
    · subst hn
      have hnone := Option.not_isSome_iff_eq_none.1 hnew
      simp [hnone, Declares, eq_comm]
    · have hd : ¬ Declares ⟨order, .label, .label new :: args⟩ name := by
        rintro ⟨_, ha⟩
        simp only [List.head?_cons, Option.some.injEq, Argument.label.injEq] at ha
        exact hn ha.symm
      simp [List.lookup_cons, beq_false_of_ne hn, hd]
  | case5 table k i rest hi ih =>
    have hd : ¬ i.Declares name := fun hd => hi i.order i.args (by rw [← hd.1])
    rw [ih h, declaredAt_cons]
    simp [hd]

theorem lookup_ofInstructions (h : ofInstructions is = .ok t) (name : String) (j : Nat) :
    t.lookup name = some j ↔ ∃ i, is[j]? = some i ∧ i.Declares name := by
  rw [lookup_extend h]
  simp [DeclaredAt]

/-- What is wrong with an instruction that comes when the table holds the labels before it. -/
inductive Wrong (table : LabelTable) (i : Instruction) : Fault → Prop
  | unnamed (label : i.opcode = .label) (unnamed : ∀ name, ¬ i.Declares name) :
    Wrong table i (.labelWithoutName i.order)
  | again {name : String} (declares : i.Declares name) (known : (table.lookup name).isSome) :
    Wrong table i (.labelExists name)

/-- A list without a table goes well up to the instruction that is at fault. -/
theorem exists_wrong_of_extend {f : Fault} (h : extend table k is = .error f) :
    ∃ pre i post t, is = pre ++ i :: post ∧ extend table k pre = .ok t ∧ Wrong t i f := by
  fun_induction extend table k is with
  | case1 => cases h
  | case2 table k order rest name args hknown =>
    cases h
    exact ⟨[], _, rest, table, rfl, rfl, .again ⟨rfl, rfl⟩ hknown⟩
  | case3 table k order rest name args hnew ih =>
    obtain ⟨pre, i, post, t, rfl, hpre, hwrong⟩ := ih h
    refine ⟨⟨order, .label, .label name :: args⟩ :: pre, i, post, t, rfl, ?_, hwrong⟩
    rw [extend, if_neg hnew, hpre]
  | case4 table k order args rest hargs =>
    cases h
    refine ⟨[], ⟨order, .label, args⟩, rest, table, rfl, rfl, .unnamed rfl ?_⟩
    rintro name ⟨_, hhead⟩
    obtain ⟨as, rfl⟩ := List.head?_eq_some_iff.1 hhead
    exact hargs name as rfl
  | case5 table k i rest hi ih =>
    obtain ⟨pre, j, post, t, rfl, hpre, hwrong⟩ := ih h
    refine ⟨i :: pre, j, post, t, rfl, ?_, hwrong⟩
    rw [extend, hpre]
    exact hi

theorem nodup_labelNames (h : ofInstructions is = .ok t) : (labelNames is).Nodup := by
  refine List.pairwise_filterMap.2 (List.pairwise_iff_getElem.2 ?_)
  intro a b ha hb hab name hname name' hname' heq
  subst heq
  have hla := (lookup_ofInstructions h name a).2
    ⟨_, List.getElem?_eq_getElem ha, labelName?_eq_some_iff.1 hname⟩
  have hlb := (lookup_ofInstructions h name b).2
    ⟨_, List.getElem?_eq_getElem hb, labelName?_eq_some_iff.1 hname'⟩
  have heq : a = b := Option.some.inj (hla.symm.trans hlb)
  omega

end LabelTable

end Ippcode
