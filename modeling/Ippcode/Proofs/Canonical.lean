import Ippcode.Proofs.Acceptance
import Mathlib.Data.List.Duplicate
import Mathlib.Data.List.Pairwise
import Mathlib.Data.List.Perm.Basic

/-! # Which programs are accepted

A list of instructions is accepted exactly if it is well formed, and the program is then the one
arrangement of the list that rises in order. Any other list is refused for the first of four
reasons that holds: operands that do not fit, an order that is not positive, an order that occurs
again, a label that is declared again. `Refused` says which instruction of the list is named.
-/
namespace Ippcode

namespace Instruction

/-! ## Operands -/

theorem kind_of_misfit? {op : Opcode} {order : Int64} {k : Nat} {slots : List Slot}
    {args : List Argument} {f : Fault} (h : misfit? op order k slots args = some f) :
    f.kind = .programStructure := by
  fun_induction misfit? op order k slots args with
  | case1 k slot slots arg args hfits ih => exact ih h
  | case2 =>
    cases h
    rfl
  | case3 => cases h

theorem kind_of_fault? {i : Instruction} {f : Fault} (h : i.fault? = some f) :
    f.kind = .programStructure := by
  simp only [fault?] at h
  split at h
  · exact kind_of_misfit? h
  · cases h
    rfl

theorem exists_declares_of_fits {i : Instruction} (h : i.fault? = none)
    (hop : i.opcode = .label) : ∃ name, i.Declares name := by
  have hfit := fault?_eq_none_iff.1 h
  rw [hop] at hfit
  obtain ⟨_, _, ha, _, hargs⟩ := allFit_cons.1 hfit
  obtain ⟨name, rfl⟩ := Argument.fits_label.1 ha
  exact ⟨name, hop, by rw [hargs, List.head?_cons]⟩

end Instruction

open Instruction

namespace Line

theorem ofInstruction_eq_error_iff {i : Instruction} {f : Fault} :
    ofInstruction i = .error f ↔ i.fault? = some f := by
  unfold ofInstruction Instruction.command
  rw [Except.map_eq_error]
  split
  next hf => simp [hf]
  next hf => simp [hf]

theorem exists_ofInstruction_iff {i : Instruction} :
    (∃ l, ofInstruction i = .ok l) ↔ i.fault? = none := by
  constructor
  · rintro ⟨l, hl⟩
    rw [← instruction_of_ofInstruction hl]
    exact fault?_instruction l
  · intro h
    cases hl : ofInstruction i with
    | ok l => exact ⟨l, rfl⟩
    | error f => simp [ofInstruction_eq_error_iff.1 hl] at h

/-- Records become lines up to the first whose operands do not fit. -/
theorem mapM_ofInstruction_eq_error_iff {is : List Instruction} {f : Fault} :
    is.mapM ofInstruction = .error f ↔
      ∃ pre i post, is = pre ++ i :: post ∧ (∀ j ∈ pre, j.fault? = none) ∧ i.fault? = some f := by
  simp only [Except.mapM_eq_error_iff, exists_ofInstruction_iff, ofInstruction_eq_error_iff]

theorem exists_map_instruction {is : List Instruction} (h : ∀ i ∈ is, i.fault? = none) :
    ∃ lines : List Line, lines.map instruction = is := by
  cases hlines : is.mapM ofInstruction with
  | ok lines => exact ⟨lines, map_instruction_of_mapM hlines⟩
  | error f =>
    obtain ⟨pre, i, post, rfl, _, hi⟩ := mapM_ofInstruction_eq_error_iff.1 hlines
    simp [h i (by simp)] at hi

theorem instruction_injective : Function.Injective instruction := by
  intro a b h
  have heq : Except.ok (ε := Fault) a = .ok b := by
    rw [← ofInstruction_instruction a, h, ofInstruction_instruction b]
  exact Except.ok.inj heq

end Line

/-! ## Orders that occur again -/

/-- The least of the orders that occur more than once. -/
structure LeastDuplicate (orders : List Int64) (o : Int64) : Prop where
  duplicate : List.Duplicate o orders
  least : ∀ o', List.Duplicate o' orders → o ≤ o'

theorem LeastDuplicate.unique {orders : List Int64} {o o' : Int64} (h : LeastDuplicate orders o)
    (h' : LeastDuplicate orders o') : o = o' :=
  Int64.le_antisymm (h.least o' h'.duplicate) (h'.least o h.duplicate)

theorem LeastDuplicate.of_perm {orders orders' : List Int64} {o : Int64}
    (h : LeastDuplicate orders o) (hperm : orders.Perm orders') : LeastDuplicate orders' o := by
  have hdup : ∀ x, List.Duplicate x orders' ↔ List.Duplicate x orders := by
    intro x
    rw [List.duplicate_iff_two_le_count, List.duplicate_iff_two_le_count, hperm.count_eq]
  exact ⟨(hdup o).2 h.duplicate, fun o' ho' => h.least o' ((hdup o').1 ho')⟩

namespace Line

variable {lines : List Line}

/-- Among lines that rise, neighbours show the least order that occurs again. -/
theorem leastDuplicate_of_repeated? {o : Int64} (hle : lines.Pairwise (·.order ≤ ·.order))
    (h : repeated? lines = some o) : LeastDuplicate (lines.map order) o := by
  fun_induction repeated? lines with
  | case1 a b rest heq =>
    cases h
    obtain ⟨hall, _⟩ := List.pairwise_cons.1 hle
    refine ⟨.cons_mem (by simp [heq]), ?_⟩
    intro o' ho'
    obtain ⟨l, hl, rfl⟩ := List.mem_map.1 ho'.mem
    rcases List.mem_cons.1 hl with rfl | hl
    · exact Int64.le_rfl
    · exact hall l hl
  | case2 a b rest hne ih =>
    obtain ⟨hall, htail⟩ := List.pairwise_cons.1 hle
    have hleast := ih htail h
    refine ⟨.cons_duplicate hleast.duplicate, ?_⟩
    intro o' ho'
    rcases List.duplicate_cons_iff.1 ho' with ⟨rfl, hmem⟩ | htl
    · -- what lies between two equal orders is equal to them, but the next line differs
      obtain ⟨l, hl, hla⟩ := List.mem_map.1 hmem
      have hab : a.order ≤ b.order := hall b List.mem_cons_self
      have hba : b.order ≤ a.order := by
        rcases List.mem_cons.1 hl with rfl | hl'
        · exact Int64.le_of_eq hla
        · rw [← hla]
          exact (List.pairwise_cons.1 htail).1 l hl'
      exact absurd (Int64.le_antisymm hab hba) hne
    · exact hleast.least o' htl
  | case3 => cases h

theorem pairwise_lt_of_repeated? (hle : lines.Pairwise (·.order ≤ ·.order))
    (h : repeated? lines = none) : lines.Pairwise (·.order < ·.order) := by
  fun_induction repeated? lines with
  | case1 => cases h
  | case2 a b rest hne ih =>
    obtain ⟨hall, htail⟩ := List.pairwise_cons.1 hle
    have hab : a.order < b.order := Int64.lt_of_le_of_ne (hall b List.mem_cons_self) hne
    refine List.pairwise_cons.2 ⟨?_, ih htail h⟩
    intro l hl
    rcases List.mem_cons.1 hl with rfl | hl'
    · exact hab
    · exact Int64.lt_of_lt_of_le hab ((List.pairwise_cons.1 htail).1 l hl')
  | case3 lines hshort =>
    match lines, hshort with
    | [], _ => exact .nil
    | [a], _ => exact List.pairwise_singleton _ a
    | a :: b :: rest, hshort => exact absurd rfl (hshort a b rest)

theorem nodup_orders (h : lines.Pairwise (·.order < ·.order)) : (lines.map order).Nodup :=
  List.pairwise_map.2 (h.imp Int64.ne_of_lt)

theorem repeated?_sort_eq_some_iff {o : Int64} :
    repeated? (sort lines) = some o ↔ LeastDuplicate (lines.map order) o := by
  have hperm : ((sort lines).map order).Perm (lines.map order) := (sort_perm lines).map order
  constructor
  · intro h
    exact (leastDuplicate_of_repeated? (pairwise_sort lines) h).of_perm hperm
  · intro h
    have hsorted := h.of_perm hperm.symm
    cases hr : repeated? (sort lines) with
    | none =>
      have hlt := pairwise_lt_of_repeated? (pairwise_sort lines) hr
      exact absurd (nodup_orders hlt) hsorted.duplicate.not_nodup
    | some o' => rw [(leastDuplicate_of_repeated? (pairwise_sort lines) hr).unique hsorted]

theorem repeated?_sort_eq_none_iff :
    repeated? (sort lines) = none ↔ (lines.map order).Nodup := by
  constructor
  · intro h
    have hlt := pairwise_lt_of_repeated? (pairwise_sort lines) h
    exact ((sort_perm lines).map order).nodup_iff.1 (nodup_orders hlt)
  · intro h
    rw [Option.eq_none_iff_forall_ne_some]
    intro o ho
    exact (repeated?_sort_eq_some_iff.1 ho).duplicate.not_nodup h

end Line

/-! ## Labels that are declared again -/

namespace Instruction

variable {is s : List Instruction} {i j : Instruction} {name : String}

/-- The instruction declares a name that one of lower order declares too. -/
def Repeats (is : List Instruction) (i : Instruction) : Prop :=
  i.labelName?.isSome ∧ ∃ j ∈ is, j.order < i.order ∧ j.labelName? = i.labelName?

instance : Decidable (Repeats is i) := inferInstanceAs (Decidable (_ ∧ _))

/-- Of the instructions that declare a name again, the one of the lowest order. -/
structure FirstRepeat (is : List Instruction) (i : Instruction) (name : String) : Prop where
  mem : i ∈ is
  declares : i.labelName? = some name
  repeats : Repeats is i
  first : ∀ j ∈ is, Repeats is j → i.order ≤ j.order

theorem FirstRepeat.of_perm (h : FirstRepeat is i name) (hperm : is.Perm s) :
    FirstRepeat s i name := by
  have hrepeats : ∀ j, Repeats s j ↔ Repeats is j := by
    intro j
    simp only [Repeats, hperm.mem_iff]
  refine ⟨hperm.mem_iff.1 h.mem, h.declares, (hrepeats i).2 h.repeats, ?_⟩
  intro j hj hagain
  exact h.first j (hperm.mem_iff.2 hj) ((hrepeats j).1 hagain)

theorem FirstRepeat.name_eq (horders : (is.map order).Nodup) {other : String}
    (h : FirstRepeat is i name) (h' : FirstRepeat is j other) : name = other := by
  have hij : i.order ≤ j.order := h.first j h'.mem h'.repeats
  have hji : j.order ≤ i.order := h'.first i h.mem h.repeats
  obtain rfl : i = j :=
    List.inj_on_of_nodup_map horders h.mem h'.mem (Int64.le_antisymm hij hji)
  exact Option.some.inj (h.declares.symm.trans h'.declares)

/-- Where all names differ, a name is declared by one instruction. -/
theorem eq_of_labelName? (h : (labelNames is).Nodup) (hi : i ∈ is) (hj : j ∈ is)
    (hin : i.labelName? = some name) (hjn : j.labelName? = some name) : i = j := by
  have hpairwise := List.pairwise_filterMap.1 h
  have : Std.Symm fun a b : Instruction =>
      ∀ n, a.labelName? = some n → ∀ n', b.labelName? = some n' → n ≠ n' :=
    ⟨fun a b hab n hn n' hn' => (hab n' hn' n hn).symm⟩
  by_contra hne
  exact hpairwise.forall hi hj hne name hin name hjn rfl

theorem not_repeats (h : (labelNames is).Nodup) (hi : i ∈ is) : ¬ Repeats is i := by
  rintro ⟨hsome, j, hj, hlt, hjn⟩
  obtain ⟨name, hname⟩ := Option.isSome_iff_exists.1 hsome
  obtain rfl := eq_of_labelName? h hi hj hname (hjn.trans hname)
  exact Int64.lt_irrefl hlt

/-- In a list that rises, what has a lower order stands before. -/
theorem mem_left_of_lt {pre post : List Instruction}
    (hs : (pre ++ i :: post).Pairwise (·.order < ·.order)) (hj : j ∈ pre ++ i :: post)
    (hlt : j.order < i.order) : j ∈ pre := by
  obtain ⟨_, hright, _⟩ := List.pairwise_append.1 hs
  rcases List.mem_append.1 hj with hpre | hright'
  · exact hpre
  rcases List.mem_cons.1 hright' with rfl | hpost
  · exact absurd hlt Int64.lt_irrefl
  · exact absurd hlt (Int64.lt_asymm ((List.pairwise_cons.1 hright).1 j hpost))

end Instruction

namespace LabelTable

variable {s : List Instruction} {f : Fault}

/-- Instructions that fit and rise fail to make a table only by a label that is declared again, and
the one that comes first is named. -/
theorem exists_firstRepeat_of_error (hfits : ∀ i ∈ s, i.fault? = none)
    (hs : s.Pairwise (·.order < ·.order)) (h : ofInstructions s = .error f) :
    ∃ i name, f = .labelExists name ∧ FirstRepeat s i name := by
  obtain ⟨pre, i, post, t, rfl, ht, hwrong⟩ := exists_wrong_of_extend h
  have hi : i ∈ pre ++ i :: post := List.mem_append_right _ List.mem_cons_self
  cases hwrong with
  | unnamed hop hnone =>
    obtain ⟨name, hname⟩ := exists_declares_of_fits (hfits i hi) hop
    exact absurd hname (hnone name)
  | @again name hname hknown =>
    obtain ⟨k, hk⟩ := Option.isSome_iff_exists.1 hknown
    obtain ⟨j, hj, hjn⟩ := (lookup_ofInstructions ht name k).1 hk
    have hjpre : j ∈ pre := List.mem_of_getElem? hj
    have hlt : j.order < i.order := hs.rel_of_mem_append hjpre List.mem_cons_self
    have hin := labelName?_eq_some_iff.2 hname
    have hsame : j.labelName? = i.labelName? := (labelName?_eq_some_iff.2 hjn).trans hin.symm
    refine ⟨i, name, rfl, hi, hin, ?_, ?_⟩
    · exact ⟨by rw [hin, Option.isSome_some], j, List.mem_append_left _ hjpre, hlt, hsame⟩
    · -- an earlier repetition would have both its instructions among those that made a table
      rintro a ha ⟨hsome, b, hb, hba, hbname⟩
      by_contra hnle
      have hai : a.order < i.order := Int64.not_le.1 hnle
      have hapre : a ∈ pre := mem_left_of_lt hs ha hai
      have hbpre : b ∈ pre := mem_left_of_lt hs hb (Int64.lt_trans hba hai)
      exact not_repeats (nodup_labelNames ht) hapre ⟨hsome, b, hbpre, hba, hbname⟩

theorem ofInstructions_eq_error_iff (hfits : ∀ i ∈ s, i.fault? = none)
    (hs : s.Pairwise (·.order < ·.order)) :
    ofInstructions s = .error f ↔ ∃ i name, f = .labelExists name ∧ FirstRepeat s i name := by
  constructor
  · exact exists_firstRepeat_of_error hfits hs
  · rintro ⟨i, name, rfl, hfirst⟩
    cases h : ofInstructions s with
    | ok t => exact absurd hfirst.repeats (not_repeats (nodup_labelNames h) hfirst.mem)
    | error f =>
      obtain ⟨j, other, rfl, hother⟩ := exists_firstRepeat_of_error hfits hs h
      have horders : (s.map order).Nodup := List.pairwise_map.2 (hs.imp Int64.ne_of_lt)
      rw [hfirst.name_eq horders hother]

end LabelTable

/-! ## Acceptance -/

/-- Operands fit, orders are positive, and neither an order nor a label occurs twice. -/
structure WellFormed (is : List Instruction) : Prop where
  fits : ∀ i ∈ is, i.fault? = none
  positive : ∀ i ∈ is, 0 < i.order
  orders : (is.map order).Nodup
  labels : (labelNames is).Nodup

/-- Why a list of instructions is refused, with the fault and its kind. Each reason counts only
where those above it do not hold. -/
inductive Refused (is : List Instruction) : FaultKind → Fault → Prop
  /-- The first instruction whose operands do not fit. -/
  | misfit {pre post : List Instruction} {i : Instruction} {f : Fault}
    (split : is = pre ++ i :: post) (before : ∀ j ∈ pre, j.fault? = none)
    (fault : i.fault? = some f) : Refused is .programStructure f
  /-- The first instruction whose order is not positive. -/
  | notPositive {pre post : List Instruction} {i : Instruction}
    (fits : ∀ j ∈ is, j.fault? = none) (split : is = pre ++ i :: post)
    (before : ∀ j ∈ pre, 0 < j.order) (order : i.order ≤ 0) :
    Refused is .programStructure (.orderNotPositive i.order)
  | repeatedOrder {o : Int64}
    (fits : ∀ j ∈ is, j.fault? = none) (positive : ∀ j ∈ is, 0 < j.order)
    (least : LeastDuplicate (is.map order) o) :
    Refused is .programStructure (.duplicateOrder o)
  | repeatedLabel {i : Instruction} {name : String}
    (fits : ∀ j ∈ is, j.fault? = none) (positive : ∀ j ∈ is, 0 < j.order)
    (orders : (is.map order).Nodup) (first : FirstRepeat is i name) :
    Refused is .semantic (.labelExists name)

theorem WellFormed.not_refused {is : List Instruction} (h : WellFormed is) {kind : FaultKind}
    {f : Fault} : ¬ Refused is kind f := by
  intro hf
  cases hf with
  | @misfit _ _ i _ split _ fault =>
    have hi : i ∈ is := by simp [split]
    simp [h.fits i hi] at fault
  | @notPositive _ _ i _ split _ order =>
    have hi : i ∈ is := by simp [split]
    exact Int64.not_le.2 (h.positive i hi) order
  | repeatedOrder _ _ least => exact least.duplicate.not_nodup h.orders
  | repeatedLabel _ _ _ first => exact not_repeats h.labels first.mem first.repeats

theorem Refused.kind_eq {is : List Instruction} {kind : FaultKind} {f : Fault}
    (h : Refused is kind f) : f.kind = kind := by
  cases h with
  | misfit _ _ fault => exact kind_of_fault? fault
  | notPositive | repeatedOrder | repeatedLabel => rfl

namespace Program

variable {is : List Instruction} {p : Program}

def instructions (p : Program) : List Instruction := p.lines.toList.map Line.instruction

/-- Past the check of operands, the first order that is not positive is looked for. -/
theorem ofInstructions_map_instruction (lines : List Line) :
    ofInstructions (lines.map Line.instruction) =
      match (lines.map Line.instruction).find? fun i => decide (i.order ≤ 0) with
      | some i => .error (.orderNotPositive i.order)
      | none => ofSorted (Line.sort lines) := by
  have hfind : (lines.map Line.instruction).find? (fun i => decide (i.order ≤ 0)) =
      (lines.find? fun l => decide (l.order ≤ 0)).map Line.instruction := List.find?_map
  unfold ofInstructions
  rw [Line.mapM_map_instruction, hfind]
  cases h : lines.find? fun l => decide (l.order ≤ 0) with
  | none | some => simp only [bind, Except.bind, h, Option.map, Line.instruction]

theorem find?_order_eq_some_iff {i : Instruction} :
    is.find? (fun i => decide (i.order ≤ 0)) = some i ↔
      i.order ≤ 0 ∧ ∃ pre post, is = pre ++ i :: post ∧ ∀ j ∈ pre, 0 < j.order := by
  rw [List.find?_eq_some_iff_append]
  simp

theorem find?_order_eq_none_iff :
    is.find? (fun i => decide (i.order ≤ 0)) = none ↔ ∀ i ∈ is, 0 < i.order := by
  simp [List.find?_eq_none]

variable {lines : List Line}

theorem map_order_instruction : (lines.map Line.instruction).map order = lines.map Line.order := by
  rw [List.map_map]
  rfl

theorem fits_map_instruction : ∀ i ∈ lines.map Line.instruction, i.fault? = none :=
  List.forall_mem_map.2 fun l _ => l.fault?_instruction

/-- Past the check of orders, the labels of the lines as they rise decide. -/
theorem ofInstructions_of_nodup (hpos : ∀ i ∈ lines.map Line.instruction, 0 < i.order)
    (horders : ((lines.map Line.instruction).map order).Nodup) :
    ofInstructions (lines.map Line.instruction) =
      (LabelTable.ofInstructions ((Line.sort lines).map Line.instruction)).map fun labels =>
        ⟨(Line.sort lines).toArray, labels⟩ := by
  rw [map_order_instruction] at horders
  rw [ofInstructions_map_instruction, find?_order_eq_none_iff.2 hpos]
  simp only [ofSorted, Line.repeated?_sort_eq_none_iff.2 horders]

theorem ofInstructions_of_repeated {o : Int64}
    (hpos : ∀ i ∈ lines.map Line.instruction, 0 < i.order)
    (hleast : LeastDuplicate ((lines.map Line.instruction).map order) o) :
    ofInstructions (lines.map Line.instruction) = .error (.duplicateOrder o) := by
  rw [map_order_instruction] at hleast
  rw [ofInstructions_map_instruction, find?_order_eq_none_iff.2 hpos]
  simp only [ofSorted, Line.repeated?_sort_eq_some_iff.2 hleast]

/-- Lines with distinct orders fail by a label that is declared again. -/
theorem labels_eq_error_iff (horders : ((lines.map Line.instruction).map order).Nodup)
    {f : Fault} :
    LabelTable.ofInstructions ((Line.sort lines).map Line.instruction) = .error f ↔
      ∃ i name, f = .labelExists name ∧ FirstRepeat (lines.map Line.instruction) i name := by
  have hperm : ((Line.sort lines).map Line.instruction).Perm (lines.map Line.instruction) :=
    (Line.sort_perm lines).map _
  rw [map_order_instruction] at horders
  have hlt : (Line.sort lines).Pairwise (·.order < ·.order) :=
    Line.pairwise_lt_of_repeated? (Line.pairwise_sort lines)
      (Line.repeated?_sort_eq_none_iff.2 horders)
  rw [LabelTable.ofInstructions_eq_error_iff fits_map_instruction (List.pairwise_map.2 hlt)]
  constructor
  · rintro ⟨i, name, rfl, hfirst⟩
    exact ⟨i, name, rfl, hfirst.of_perm hperm⟩
  · rintro ⟨i, name, rfl, hfirst⟩
    exact ⟨i, name, rfl, hfirst.of_perm hperm.symm⟩

theorem error_of_refused {kind : FaultKind} {f : Fault} (h : Refused is kind f) :
    ofInstructions is = .error f := by
  cases h with
  | misfit split before fault =>
    have hlines := Line.mapM_ofInstruction_eq_error_iff.2 ⟨_, _, _, split, before, fault⟩
    rw [ofInstructions, hlines]
    rfl
  | notPositive fits split before order =>
    obtain ⟨lines, rfl⟩ := Line.exists_map_instruction fits
    rw [ofInstructions_map_instruction,
      find?_order_eq_some_iff.2 ⟨order, _, _, split, before⟩]
  | repeatedOrder fits positive least =>
    obtain ⟨lines, rfl⟩ := Line.exists_map_instruction fits
    exact ofInstructions_of_repeated positive least
  | repeatedLabel fits positive orders first =>
    obtain ⟨lines, rfl⟩ := Line.exists_map_instruction fits
    rw [ofInstructions_of_nodup positive orders, Except.map_eq_error]
    exact (labels_eq_error_iff orders).2 ⟨_, _, rfl, first⟩

theorem refused_of_error {f : Fault} (h : ofInstructions is = .error f) : Refused is f.kind f := by
  cases hlines : is.mapM Line.ofInstruction with
  | error g =>
    rw [ofInstructions, hlines] at h
    cases h
    obtain ⟨pre, i, post, split, before, fault⟩ := Line.mapM_ofInstruction_eq_error_iff.1 hlines
    rw [kind_of_fault? fault]
    exact .misfit split before fault
  | ok lines =>
    obtain rfl := Line.map_instruction_of_mapM hlines
    cases hfind : (lines.map Line.instruction).find? fun i => decide (i.order ≤ 0) with
    | some i =>
      rw [ofInstructions_map_instruction, hfind] at h
      cases h
      obtain ⟨order, pre, post, split, before⟩ := find?_order_eq_some_iff.1 hfind
      exact .notPositive fits_map_instruction split before order
    | none =>
      have positive := find?_order_eq_none_iff.1 hfind
      cases hr : Line.repeated? (Line.sort lines) with
      | some o =>
        have least := Line.repeated?_sort_eq_some_iff.1 hr
        rw [← map_order_instruction] at least
        rw [ofInstructions_of_repeated positive least] at h
        cases h
        exact .repeatedOrder fits_map_instruction positive least
      | none =>
        have orders := Line.repeated?_sort_eq_none_iff.1 hr
        rw [← map_order_instruction] at orders
        rw [ofInstructions_of_nodup positive orders, Except.map_eq_error] at h
        obtain ⟨i, name, rfl, first⟩ := (labels_eq_error_iff orders).1 h
        exact .repeatedLabel fits_map_instruction positive orders first

theorem wellFormed_of_ok (h : ofInstructions is = .ok p) : WellFormed is := by
  obtain ⟨lines, hlines, hpos, hr, _, hlabels⟩ := exists_lines_of_ofInstructions h
  obtain rfl := Line.map_instruction_of_mapM hlines
  have hperm : ((Line.sort lines).map Line.instruction).Perm (lines.map Line.instruction) :=
    (Line.sort_perm lines).map _
  refine ⟨fits_map_instruction, List.forall_mem_map.2 hpos, ?_, ?_⟩
  · rw [map_order_instruction]
    exact Line.repeated?_sort_eq_none_iff.1 hr
  · exact (hperm.filterMap labelName?).nodup_iff.1 (LabelTable.nodup_labelNames hlabels)

theorem exists_ok_iff : (∃ p, ofInstructions is = .ok p) ↔ WellFormed is := by
  constructor
  · rintro ⟨p, hp⟩
    exact wellFormed_of_ok hp
  · intro h
    cases hp : ofInstructions is with
    | ok p => exact ⟨p, rfl⟩
    | error f => exact absurd (refused_of_error hp) h.not_refused

/-! ## Arrangement -/

theorem pairwise_lines (h : ofInstructions is = .ok p) :
    p.lines.toList.Pairwise (·.order < ·.order) := by
  obtain ⟨lines, _, _, hr, hp, _⟩ := exists_lines_of_ofInstructions h
  rw [hp]
  exact Line.pairwise_lt_of_repeated? (Line.pairwise_sort lines) hr

theorem eq_instructions_of_perm (h : ofInstructions is = .ok p) {s : List Instruction}
    (hperm : s.Perm is) (hs : s.Pairwise (·.order < ·.order)) : s = p.instructions := by
  have hrises : p.instructions.Pairwise (·.order < ·.order) :=
    List.pairwise_map.2 (pairwise_lines h)
  refine List.Perm.eq_of_pairwise ?_ hs hrises (hperm.trans (perm_instructions h).symm)
  intro a b _ _ hab hba
  exact absurd hba (Int64.lt_asymm hab)

/-- Every arrangement of an accepted list gives the same program. -/
theorem ofInstructions_eq_of_perm (h : ofInstructions is = .ok p) {js : List Instruction}
    (hperm : js.Perm is) : ofInstructions js = .ok p := by
  have hjs : ∀ j ∈ js, j.fault? = none :=
    fun j hj => (wellFormed_of_ok h).fits j (hperm.mem_iff.1 hj)
  obtain ⟨given, rfl⟩ := Line.exists_map_instruction hjs
  have hlines : given.Perm p.lines.toList :=
    (List.map_perm_map_iff Line.instruction_injective).1
      (hperm.trans (perm_instructions h).symm)
  obtain ⟨lines, _, hpos, _, hp, hlabels⟩ := exists_lines_of_ofInstructions h
  have hpos' : ∀ l ∈ p.lines.toList, 0 < l.order := by
    rw [hp]
    exact fun l hl => hpos l ((Line.sort_perm lines).mem_iff.1 hl)
  have hlabels' : LabelTable.ofInstructions p.instructions = .ok p.labels := by
    rw [instructions, hp]
    exact hlabels
  exact ofInstructions_of_perm given hlines hpos' (pairwise_lines h) hlabels'

/-- A list is accepted exactly if it is well formed. The program is then the one arrangement of it
that rises in order, and every arrangement of the list gives it. A list that is not well formed is
refused with the fault, of the kind, that `Refused` says. -/
theorem accepts_wellFormed_canonically (is : List Instruction) :
    ((∃ p, ofInstructions is = .ok p) ↔ WellFormed is) ∧
      (∀ p, ofInstructions is = .ok p →
        p.instructions.Perm is ∧ p.instructions.Pairwise (·.order < ·.order) ∧
          (∀ s, s.Perm is → s.Pairwise (·.order < ·.order) → s = p.instructions) ∧
          ∀ js, js.Perm is → ofInstructions js = .ok p) ∧
      ∀ kind f, (ofInstructions is = .error f ∧ f.kind = kind) ↔ Refused is kind f := by
  refine ⟨exists_ok_iff, ?_, ?_⟩
  · intro p hp
    refine ⟨perm_instructions hp, List.pairwise_map.2 (pairwise_lines hp), ?_, ?_⟩
    · exact fun s => eq_instructions_of_perm hp
    · exact fun js => ofInstructions_eq_of_perm hp
  · intro kind f
    constructor
    · rintro ⟨hf, rfl⟩
      exact refused_of_error hf
    · intro hf
      exact ⟨error_of_refused hf, hf.kind_eq⟩

/-- A list that is given out of order is accepted in order. Of two labels that are declared twice,
the one that is repeated first as the orders rise is named, not the one repeated first as given. -/
theorem accepts_wellFormed_canonically_given :
    (∃ p, ofInstructions [⟨30, .jump, [.label "end"]⟩, ⟨40, .label, [.label "end"]⟩,
        ⟨10, .label, [.label "start"]⟩, ⟨20, .brk, []⟩] = .ok p ∧
      p.instructions = [⟨10, .label, [.label "start"]⟩, ⟨20, .brk, []⟩,
        ⟨30, .jump, [.label "end"]⟩, ⟨40, .label, [.label "end"]⟩]) ∧
    ofInstructions [⟨10, .label, [.label "a"]⟩, ⟨40, .label, [.label "a"]⟩,
        ⟨30, .label, [.label "b"]⟩, ⟨20, .label, [.label "b"]⟩] = .error (.labelExists "b") ∧
      (Fault.labelExists "b").kind = .semantic := by
  constructor
  · have hgiven : WellFormed [⟨30, .jump, [.label "end"]⟩, ⟨40, .label, [.label "end"]⟩,
        ⟨10, .label, [.label "start"]⟩, ⟨20, .brk, []⟩] :=
      ⟨by decide, by decide, by decide, by decide⟩
    obtain ⟨p, hp⟩ := (accepts_wellFormed_canonically _).1.2 hgiven
    obtain ⟨_, _, hunique, _⟩ := (accepts_wellFormed_canonically _).2.1 p hp
    exact ⟨p, hp, (hunique _ (by decide) (by decide)).symm⟩
  · have hfirst : FirstRepeat [⟨10, .label, [.label "a"]⟩, ⟨40, .label, [.label "a"]⟩,
        ⟨30, .label, [.label "b"]⟩, ⟨20, .label, [.label "b"]⟩]
        ⟨30, .label, [.label "b"]⟩ "b" :=
      ⟨by decide, by decide, by decide, by decide⟩
    refine ((accepts_wellFormed_canonically _).2.2 .semantic _).2 ?_
    exact .repeatedLabel (by decide) (by decide) (by decide) hfirst

end Program

end Ippcode
