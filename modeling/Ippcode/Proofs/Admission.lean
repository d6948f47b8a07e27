import Ippcode.Proofs.FaultKinds

/-! # Admissible operands

Every operator looks at the types of all its operands before it looks at the value of any. If the
types are not admissible, this is the fault, whatever the values are. If they are, a few values are
refused, and all others give a result of a type that depends on the operator alone. The types that
an operator admits are a table over the opcodes, and the values that it refuses are listed one by
one.
-/
namespace Ippcode

inductive ValueType where
  | int | bool | string | nil
  deriving DecidableEq, Repr

/-- The type of a value; an unassigned variable has none. -/
def Value.type? : Value → Option ValueType
  | .int _ => some .int
  | .bool _ => some .bool
  | .str _ => some .string
  | .nil => some .nil
  | .uninit => none

namespace Opcode

/-- The types of operands that an operator or a conditional jump admits. -/
def Admits : Opcode → List (Option ValueType) → Prop
  | .add | .sub | .mul | .idiv => fun ts => ts = [some .int, some .int]
  | .lt | .gt => fun ts => ∃ t ∈ [ValueType.int, .bool, .string], ts = [some t, some t]
  | .eq => fun ts => ∃ s t, ts = [some s, some t] ∧ (s = .nil ∨ t = .nil ∨ s = t)
  | .jumpIfEq | .jumpIfNeq => fun ts => ∃ t, ts = [some t, some t]
  | .and | .or => fun ts => ts = [some .bool, some .bool]
  | .not => fun ts => ts = [some .bool]
  | .int2Char => fun ts => ts = [some .int]
  | .stri2Int | .getChar => fun ts => ts = [some .string, some .int]
  | .setChar => fun ts => ts = [some .string, some .int, some .string]
  | .concat => fun ts => ts = [some .string, some .string]
  | .strLen => fun ts => ts = [some .string]
  | _ => fun _ => False

/-- The type of what an operator or the test of a conditional jump gives. -/
def resultType? : Opcode → Option ValueType
  | .add | .sub | .mul | .idiv | .stri2Int | .strLen => some .int
  | .lt | .gt | .eq | .and | .or | .not | .jumpIfEq | .jumpIfNeq => some .bool
  | .int2Char | .concat | .getChar | .setChar => some .string
  | _ => none

end Opcode

/-- The index of a character of a string, counted from 0. -/
def Text.HasIndex (s : String) (i : Int64) : Prop := 0 ≤ i.toInt ∧ i.toInt < s.length

instance (s : String) (i : Int64) : Decidable (Text.HasIndex s i) :=
  inferInstanceAs (Decidable (_ ∧ _))

/-- An operator, or the test of a conditional jump, with its operands. -/
inductive Application where
  | unary (op : UnaryOp) (a : Value)
  | binary (op : BinaryOp) (a b : Value)
  | setChar (target index replacement : Value)
  | jumpTest (equal : Bool) (a b : Value)

namespace Application

def opcode : Application → Opcode
  | unary op _ => op.opcode
  | binary op _ _ => op.opcode
  | setChar .. => .setChar
  | jumpTest true .. => .jumpIfEq
  | jumpTest false .. => .jumpIfNeq

def operands : Application → List Value
  | unary _ a => [a]
  | binary _ a b => [a, b]
  | setChar target index replacement => [target, index, replacement]
  | jumpTest _ a b => [a, b]

def result (x : Application) : Except Fault Value :=
  match x with
  | unary op a => op.apply a
  | binary op a b => op.apply a b
  | setChar target index replacement => Operator.setChar target index replacement
  | jumpTest _ a b => (Operator.jumpEquals x.opcode a b).map .bool

def Admissible (x : Application) : Prop := x.opcode.Admits (x.operands.map Value.type?)

/-- Operands of admissible types whose values are refused, and the kind of fault that this is. -/
inductive Refused : Application → FaultKind → Prop
  | divisor (n : Int64) : Refused (binary .idiv (.int n) (.int 0)) .operandValue
  | code {n : Int64} (h : ¬ (0 ≤ n.toInt ∧ n.toInt ≤ 255)) :
    Refused (unary .int2Char (.int n)) .stringOperation
  | stri2Int {s : String} {i : Int64} (h : ¬ Text.HasIndex s i) :
    Refused (binary .stri2Int (.str s) (.int i)) .stringOperation
  | getChar {s : String} {i : Int64} (h : ¬ Text.HasIndex s i) :
    Refused (binary .getChar (.str s) (.int i)) .stringOperation
  | setChar {s r : String} {i : Int64} (h : ¬ Text.HasIndex s i ∨ r = "") :
    Refused (setChar (.str s) (.int i) (.str r)) .stringOperation

def Faults (x : Application) (k : FaultKind) : Prop := ∃ f, x.result = .error f ∧ f.kind = k

end Application

theorem Opcode.none_not_mem_of_admits {op : Opcode} {ts : List (Option ValueType)}
    (h : op.Admits ts) : none ∉ ts := by
  cases op with
  | lt | gt =>
    obtain ⟨t, _, rfl⟩ := h
    simp
  | eq =>
    obtain ⟨s, t, rfl, _⟩ := h
    simp
  | jumpIfEq | jumpIfNeq =>
    obtain ⟨t, rfl⟩ := h
    simp
  | add | sub | mul | idiv | and | or | not | int2Char | stri2Int | getChar | setChar | concat
  | strLen =>
    cases h
    decide
  | _ => cases h

/-! ## Types of values -/

namespace Value

variable {v a b : Value}

theorem type?_eq_int : v.type? = some .int ↔ ∃ n, v = .int n := by cases v <;> simp [type?]

theorem type?_eq_bool : v.type? = some .bool ↔ ∃ b, v = .bool b := by cases v <;> simp [type?]

theorem type?_eq_string : v.type? = some .string ↔ ∃ s, v = .str s := by cases v <;> simp [type?]

theorem ints_of_types (h : [a.type?, b.type?] = [some .int, some .int]) :
    ∃ x y, a = .int x ∧ b = .int y := by
  simpa [type?_eq_int] using h

theorem bools_of_types (h : [a.type?, b.type?] = [some .bool, some .bool]) :
    ∃ x y, a = .bool x ∧ b = .bool y := by
  simpa [type?_eq_bool] using h

theorem strings_of_types (h : [a.type?, b.type?] = [some .string, some .string]) :
    ∃ x y, a = .str x ∧ b = .str y := by
  simpa [type?_eq_string] using h

theorem indexed_of_types (h : [a.type?, b.type?] = [some .string, some .int]) :
    ∃ s i, a = .str s ∧ b = .int i := by
  simpa [type?_eq_string, type?_eq_int] using h

/-- Two values of one of the types that have an order. -/
theorem cases_of_ordered
    (h : ∃ t ∈ [ValueType.int, .bool, .string], [a.type?, b.type?] = [some t, some t]) :
    (∃ x y, a = .int x ∧ b = .int y) ∨ (∃ x y, a = .bool x ∧ b = .bool y) ∨
      ∃ x y, a = .str x ∧ b = .str y := by
  obtain ⟨t, ht, htypes⟩ := h
  cases t with
  | int => exact .inl (ints_of_types htypes)
  | bool => exact .inr (.inl (bools_of_types htypes))
  | string => exact .inr (.inr (strings_of_types htypes))
  | nil => simp at ht

theorem typeName_eq_iff : a.typeName = b.typeName ↔ a.type? = b.type? := by
  cases a <;> cases b <;> simp [typeName, type?]

end Value

/-! ## Inadmissible types -/

namespace Operator

variable {op : Opcode} {a b c : Value}

theorem arithmetic_inadmissible {f : Int64 → Int64 → Except Fault Int64}
    (h : ¬ [a.type?, b.type?] = [some .int, some .int]) :
    arithmetic op f a b = .error (.operandTypes op a b) := by
  unfold arithmetic
  split
  · exact absurd rfl h
  · rfl

theorem logical_inadmissible {f : Bool → Bool → Bool}
    (h : ¬ [a.type?, b.type?] = [some .bool, some .bool]) :
    logical op f a b = .error (.operandTypes op a b) := by
  unfold logical
  split
  · exact absurd rfl h
  · rfl

theorem concat_inadmissible (h : ¬ [a.type?, b.type?] = [some .string, some .string]) :
    concat a b = .error (.operandTypes .concat a b) := by
  unfold concat
  split
  · exact absurd rfl h
  · rfl

theorem charAt_inadmissible (h : ¬ [a.type?, b.type?] = [some .string, some .int]) :
    charAt op a b = .error (.operandTypes op a b) := by
  unfold charAt
  split
  · exact absurd rfl h
  · rfl

theorem setChar_inadmissible
    (h : ¬ [a.type?, b.type?, c.type?] = [some .string, some .int, some .string]) :
    ∃ f, setChar a b c = .error f ∧ f.kind = .operandType := by
  unfold setChar
  split
  · exact absurd rfl h
  · exact ⟨_, rfl, rfl⟩
  · exact ⟨_, rfl, rfl⟩

/-- The order within a type is defined on two values of one of three types. -/
theorem less?_eq_none (h : ¬ ∃ t ∈ [ValueType.int, .bool, .string],
    [a.type?, b.type?] = [some t, some t]) : less? a b = none := by
  unfold less?
  split
  · exact absurd ⟨.int, by simp, rfl⟩ h
  · exact absurd ⟨.bool, by simp, rfl⟩ h
  · exact absurd ⟨.string, by simp, rfl⟩ h
  · rfl

theorem relational_inadmissible (test : Value → Value → Option Bool) (h : test a b = none) :
    ∃ f, relational op test a b = .error f ∧ f.kind = .operandType := by
  cases hr : relational op test a b with
  | error f => exact ⟨f, rfl, kind_of_relational hr⟩
  | ok v =>
    obtain ⟨_, _, hr⟩ := Except.bind_eq_ok.1 hr
    rw [h] at hr
    split at hr <;> cases hr

theorem bothAssigned_eq_ok_iff {u : Unit} :
    bothAssigned op a b = .ok u ↔ a ≠ .uninit ∧ b ≠ .uninit := by
  simp [bothAssigned]

theorem admits_eq_iff : Opcode.eq.Admits [a.type?, b.type?] ↔
    (a ≠ .uninit ∧ b ≠ .uninit) ∧ (a = .nil ∨ b = .nil ∨ a.type? = b.type?) := by
  cases a <;> cases b <;> simp [Opcode.Admits, Value.type?]

theorem admits_jumpIf_iff : (∃ t, [a.type?, b.type?] = [some t, some t]) ↔
    (a ≠ .uninit ∧ b ≠ .uninit) ∧ a.type? = b.type? := by
  cases a <;> cases b <;> simp [Value.type?]

theorem equals_eq_ok_iff {r : Bool} :
    equals a b = .ok r ↔ Opcode.eq.Admits [a.type?, b.type?] ∧ r = decide (a = b) := by
  simp only [equals, Except.bind_eq_ok, bothAssigned_eq_ok_iff, exists_const, admits_eq_iff,
    and_assoc, Bool.or_eq_true, Value.isNil_iff, Value.sameType_iff, Value.typeName_eq_iff,
    or_assoc]
  split <;> simp [*, eq_comm]

theorem jumpEquals_eq_ok_iff {r : Bool} :
    jumpEquals op a b = .ok r ↔
      (∃ t, [a.type?, b.type?] = [some t, some t]) ∧ r = decide (a = b) := by
  simp only [jumpEquals, Except.bind_eq_ok, bothAssigned_eq_ok_iff, exists_const,
    admits_jumpIf_iff, and_assoc, Value.sameType_iff, Value.typeName_eq_iff]
  split <;> simp [*, eq_comm]

theorem equals_inadmissible (h : ¬ Opcode.eq.Admits [a.type?, b.type?]) :
    ∃ f, equals a b = .error f ∧ f.kind = .operandType := by
  cases hr : equals a b with
  | error f => exact ⟨f, rfl, kind_of_equals hr⟩
  | ok r => exact absurd (equals_eq_ok_iff.1 hr).1 h

theorem jumpEquals_inadmissible (h : ¬ ∃ t, [a.type?, b.type?] = [some t, some t]) :
    ∃ f, jumpEquals op a b = .error f ∧ f.kind = .operandType := by
  cases hr : jumpEquals op a b with
  | error f => exact ⟨f, rfl, kind_of_jumpEquals hr⟩
  | ok r => exact absurd (jumpEquals_eq_ok_iff.1 hr).1 h

/-! ## Positions -/

variable {s : String} {i : Int64}

theorem position_of_hasIndex (op : Opcode) (h : Text.HasIndex s i) :
    ∃ k, position op s.toList i = .ok k ∧ k.val = i.toInt.toNat :=
  ⟨_, dif_pos h, rfl⟩

theorem position_of_not_hasIndex (h : ¬ Text.HasIndex s i) :
    position op s.toList i = .error (.indexRange op i s.length) :=
  dif_neg h

theorem charAt_of_hasIndex (h : Text.HasIndex s i) : ∃ c, charAt op (.str s) (.int i) = .ok c := by
  obtain ⟨k, hk, _⟩ := position_of_hasIndex op h
  exact ⟨_, Except.map_eq_ok.2 ⟨k, hk, rfl⟩⟩

end Operator

open Operator

namespace Application

variable {x : Application} {k : FaultKind}

/-! ## The three ways in which an application ends -/

theorem faults_of_inadmissible (h : ¬ x.Admissible) : x.Faults .operandType := by
  cases x with
  | unary op a =>
    refine ⟨.operandType op.opcode a, ?_, rfl⟩
    change op.apply a = _
    unfold UnaryOp.apply
    split
    · exact absurd rfl h
    · exact absurd rfl h
    · exact absurd rfl h
    · rfl
  | binary op a b =>
    cases op with
    | add | sub | mul | idiv => exact ⟨_, arithmetic_inadmissible h, rfl⟩
    | and | or => exact ⟨_, logical_inadmissible h, rfl⟩
    | concat => exact ⟨_, concat_inadmissible h, rfl⟩
    | lt => exact relational_inadmissible less? (less?_eq_none h)
    | gt =>
      have hflip : less? b a = none := by
        apply less?_eq_none
        rintro ⟨t, ht, htypes⟩
        simp only [List.cons.injEq, and_true] at htypes
        refine h ⟨t, ht, ?_⟩
        simp [operands, htypes]
      exact relational_inadmissible (fun a b => less? b a) hflip
    | eq =>
      obtain ⟨f, hf, hk⟩ := equals_inadmissible h
      exact ⟨f, Except.map_eq_error.2 hf, hk⟩
    | stri2Int | getChar => exact ⟨_, Except.map_eq_error.2 (charAt_inadmissible h), rfl⟩
  | setChar target index replacement => exact setChar_inadmissible h
  | jumpTest equal a b =>
    have htypes : ¬ ∃ t, [a.type?, b.type?] = [some t, some t] := by
      cases equal <;> exact h
    obtain ⟨f, hf, hk⟩ := jumpEquals_inadmissible htypes
    exact ⟨f, Except.map_eq_error.2 hf, hk⟩

theorem faults_of_refused (h : x.Refused k) : x.Faults k := by
  cases h with
  | divisor n => exact ⟨.divisionByZero, rfl, rfl⟩
  | code h =>
    refine ⟨_, if_neg ?_, rfl⟩
    omega
  | stri2Int h | getChar h =>
    exact ⟨_, Except.map_eq_error.2 (Except.map_eq_error.2 (position_of_not_hasIndex h)), rfl⟩
  | @setChar s r i h =>
    -- the index is looked at first, so an empty replacement is the fault only where it is valid
    by_cases hi : Text.HasIndex s i
    · obtain rfl := h.resolve_left (not_not_intro hi)
      obtain ⟨k, hk, _⟩ := position_of_hasIndex .setChar hi
      refine ⟨.emptyReplacement, ?_, rfl⟩
      exact Except.bind_eq_error.2 (.inr ⟨k, hk, rfl⟩)
    · exact ⟨_, Except.bind_eq_error.2 (.inl (position_of_not_hasIndex hi)), rfl⟩

theorem ok_of_unary {op : UnaryOp} {a : Value} (h : (unary op a).Admissible)
    (hr : ∀ k, ¬ (unary op a).Refused k) :
    ∃ v, op.apply a = .ok v ∧ v.type? = op.opcode.resultType? := by
  cases op with
  | not =>
    obtain ⟨b, rfl⟩ := Value.type?_eq_bool.1 (List.singleton_inj.1 h)
    exact ⟨_, rfl, rfl⟩
  | int2Char =>
    obtain ⟨n, rfl⟩ := Value.type?_eq_int.1 (List.singleton_inj.1 h)
    have hn : 0 ≤ n.toInt ∧ n.toInt < 256 := by
      by_contra hn
      refine hr _ (.code ?_)
      omega
    exact ⟨_, if_pos hn, rfl⟩
  | strLen =>
    obtain ⟨s, rfl⟩ := Value.type?_eq_string.1 (List.singleton_inj.1 h)
    exact ⟨_, rfl, rfl⟩

theorem ok_of_binary {op : BinaryOp} {a b : Value} (h : (binary op a b).Admissible)
    (hr : ∀ k, ¬ (binary op a b).Refused k) :
    ∃ v, op.apply a b = .ok v ∧ v.type? = op.opcode.resultType? := by
  cases op with
  | add | sub | mul =>
    obtain ⟨n, m, rfl, rfl⟩ := Value.ints_of_types h
    exact ⟨_, rfl, rfl⟩
  | idiv =>
    obtain ⟨n, m, rfl, rfl⟩ := Value.ints_of_types h
    have hm : m ≠ 0 := by
      rintro rfl
      exact hr _ (.divisor n)
    exact ⟨_, Except.map_eq_ok.2 ⟨_, if_neg hm, rfl⟩, rfl⟩
  | lt | gt =>
    obtain ⟨x, y, rfl, rfl⟩ | ⟨x, y, rfl, rfl⟩ | ⟨x, y, rfl, rfl⟩ := Value.cases_of_ordered h <;>
      exact ⟨_, rfl, rfl⟩
  | eq => exact ⟨_, Except.map_eq_ok.2 ⟨_, equals_eq_ok_iff.2 ⟨h, rfl⟩, rfl⟩, rfl⟩
  | and | or =>
    obtain ⟨x, y, rfl, rfl⟩ := Value.bools_of_types h
    exact ⟨_, rfl, rfl⟩
  | concat =>
    obtain ⟨s, t, rfl, rfl⟩ := Value.strings_of_types h
    exact ⟨_, rfl, rfl⟩
  | stri2Int =>
    obtain ⟨s, i, rfl, rfl⟩ := Value.indexed_of_types h
    have hi : Text.HasIndex s i := not_not.1 fun hi => hr _ (.stri2Int hi)
    obtain ⟨c, hc⟩ := charAt_of_hasIndex hi
    exact ⟨_, Except.map_eq_ok.2 ⟨c, hc, rfl⟩, rfl⟩
  | getChar =>
    obtain ⟨s, i, rfl, rfl⟩ := Value.indexed_of_types h
    have hi : Text.HasIndex s i := not_not.1 fun hi => hr _ (.getChar hi)
    obtain ⟨c, hc⟩ := charAt_of_hasIndex hi
    exact ⟨_, Except.map_eq_ok.2 ⟨c, hc, rfl⟩, rfl⟩

theorem ok_of_setChar {target index replacement : Value}
    (h : (setChar target index replacement).Admissible)
    (hr : ∀ k, ¬ (setChar target index replacement).Refused k) :
    ∃ s, Operator.setChar target index replacement = .ok (.str s) := by
  obtain ⟨htarget, hrest⟩ := List.cons.inj h
  obtain ⟨s, rfl⟩ := Value.type?_eq_string.1 htarget
  obtain ⟨i, rfl⟩ := Value.type?_eq_int.1 (List.cons.inj hrest).1
  obtain ⟨r, rfl⟩ := Value.type?_eq_string.1 (List.singleton_inj.1 (List.cons.inj hrest).2)
  have hi : Text.HasIndex s i := not_not.1 fun hi => hr _ (.setChar (.inl hi))
  obtain ⟨k, hk, _⟩ := position_of_hasIndex .setChar hi
  cases hcs : r.toList with
  | nil => exact absurd (.setChar (.inr (String.toList_eq_nil_iff.1 hcs))) (hr _)
  | cons c cs =>
    refine ⟨String.ofList (s.toList.set k c), Except.bind_eq_ok.2 ⟨k, hk, ?_⟩⟩
    rw [hcs]

theorem ok_of_accepted (h : x.Admissible) (hr : ∀ k, ¬ x.Refused k) :
    ∃ v, x.result = .ok v ∧ v.type? = x.opcode.resultType? := by
  cases x with
  | unary op a => exact ok_of_unary h hr
  | binary op a b => exact ok_of_binary h hr
  | setChar target index replacement =>
    obtain ⟨s, hs⟩ := ok_of_setChar h hr
    exact ⟨_, hs, rfl⟩
  | jumpTest equal a b =>
    have htypes : ∃ t, [a.type?, b.type?] = [some t, some t] := by
      cases equal <;> exact h
    refine ⟨_, Except.map_eq_ok.2 ⟨_, jumpEquals_eq_ok_iff.2 ⟨htypes, rfl⟩, rfl⟩, ?_⟩
    cases equal <;> rfl

theorem Refused.ne_operandType (h : x.Refused k) : k ≠ .operandType := by cases h <;> decide

theorem Admissible.uninit_not_mem (h : x.Admissible) : .uninit ∉ x.operands := by
  intro hmem
  exact Opcode.none_not_mem_of_admits h (List.mem_map_of_mem hmem)

theorem Faults.unique {l : FaultKind} (h : x.Faults k) (h' : x.Faults l) : k = l := by
  obtain ⟨f, hf, rfl⟩ := h
  obtain ⟨g, hg, rfl⟩ := h'
  cases hf.symm.trans hg
  rfl

theorem Faults.not_ok {v : Value} (h : x.Faults k) : x.result ≠ .ok v := by
  obtain ⟨f, hf, _⟩ := h
  rw [hf]
  simp

theorem refused_of_faults (ha : x.Admissible) (h : x.Faults k) : x.Refused k := by
  by_cases hr : ∃ l, x.Refused l
  · obtain ⟨l, hr⟩ := hr
    obtain rfl := h.unique (faults_of_refused hr)
    exact hr
  · obtain ⟨v, hv, _⟩ := ok_of_accepted ha (not_exists.1 hr)
    exact absurd hv h.not_ok

theorem exists_resultType (x : Application) : ∃ t, x.opcode.resultType? = some t := by
  cases x with
  | unary op => cases op <;> exact ⟨_, rfl⟩
  | binary op => cases op <;> exact ⟨_, rfl⟩
  | setChar => exact ⟨_, rfl⟩
  | jumpTest equal => cases equal <;> exact ⟨_, rfl⟩

/-- The types of the operands are checked before their values. An application fails because of
types exactly if they are not admissible, and because of values exactly if they are refused. All
else succeeds, with a result of the type that the operator has. An unassigned operand is never of
an admissible type. -/
theorem types_before_values (x : Application) :
    (x.Faults .operandType ↔ ¬ x.Admissible) ∧
      (∀ k, k ≠ .operandType → (x.Faults k ↔ x.Admissible ∧ x.Refused k)) ∧
      ((∃ v, x.result = .ok v) ↔ x.Admissible ∧ ∀ k, ¬ x.Refused k) ∧
      (∃ t, x.opcode.resultType? = some t ∧ ∀ v, x.result = .ok v → v.type? = some t) ∧
      (.uninit ∈ x.operands → x.Faults .operandType) := by
  have hsuccess : (∃ v, x.result = .ok v) ↔ x.Admissible ∧ ∀ k, ¬ x.Refused k := by
    constructor
    · rintro ⟨v, hv⟩
      refine ⟨not_not.1 fun ha => (faults_of_inadmissible ha).not_ok hv, ?_⟩
      intro k hr
      exact (faults_of_refused hr).not_ok hv
    · rintro ⟨ha, hr⟩
      obtain ⟨v, hv, _⟩ := ok_of_accepted ha hr
      exact ⟨v, hv⟩
  refine ⟨⟨?_, faults_of_inadmissible⟩, ?_, hsuccess, ?_, ?_⟩
  · intro h ha
    exact (refused_of_faults ha h).ne_operandType rfl
  · intro k hk
    refine ⟨?_, fun h => faults_of_refused h.2⟩
    intro h
    have ha : x.Admissible := not_not.1 fun ha => hk (h.unique (faults_of_inadmissible ha))
    exact ⟨ha, refused_of_faults ha h⟩
  · obtain ⟨t, ht⟩ := x.exists_resultType
    refine ⟨t, ht, ?_⟩
    intro v hv
    obtain ⟨ha, hr⟩ := hsuccess.1 ⟨v, hv⟩
    obtain ⟨w, hw, htype⟩ := ok_of_accepted ha hr
    cases hv.symm.trans hw
    rw [htype, ht]
  · intro hmem
    exact faults_of_inadmissible fun ha => ha.uninit_not_mem hmem

/-- A string is not divided by zero: that it is a string is found first. -/
theorem types_before_values_dividend :
    (binary .idiv (.int 7) (.int 0)).Faults .operandValue ∧
      (binary .idiv (.str "7") (.int 0)).Faults .operandType := by
  obtain ⟨_, hvalue, _⟩ := types_before_values (binary .idiv (.int 7) (.int 0))
  obtain ⟨htype, _⟩ := types_before_values (binary .idiv (.str "7") (.int 0))
  refine ⟨(hvalue _ (by decide)).2 ⟨rfl, .divisor 7⟩, htype.2 ?_⟩
  intro h
  cases h

end Application

end Ippcode
