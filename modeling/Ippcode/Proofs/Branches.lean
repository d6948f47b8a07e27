import Ippcode.Proofs.Admission
import Ippcode.Proofs.Operations
import Ippcode.Proofs.Rows

/-! # Conditional jumps

Values can be compared by a jump or by `EQ`. A jump takes values of one type only, nil included,
whereas `EQ` compares nil with anything. This is the only difference: to compare with `EQ` and to
jump if the result is true is to jump if the values are equal, whatever the destination of the
comparison is, unless exactly one of the two values is nil.
-/
namespace Ippcode

/-- Where a line leads, whatever the state that it leaves. -/
inductive Course where
  | next
  | jump (target : Nat)
  | exit (status : Nat)
  | fault (kind : FaultKind)
  deriving DecidableEq, Repr

def Outcome.course {ρ σ : Type} : Outcome ρ σ → Course
  | .next _ => .next
  | .jump k _ => .jump k
  | .exit n _ => .exit n
  | .fault f _ => .fault f.kind

/-- One of the values is nil, and the other one is not but is assigned. -/
def Value.OneNil (x y : Value) : Prop :=
  x = .nil ∧ y ≠ .nil ∧ y ≠ .uninit ∨ y = .nil ∧ x ≠ .nil ∧ x ≠ .uninit

instance (x y : Value) : Decidable (x.OneNil y) := inferInstanceAs (Decidable (_ ∨ _))

namespace Operator

variable {x y : Value}

/-- `EQ` admits what a jump admits, and nil against a value that is not nil. -/
theorem admits_eq_iff_jump : Opcode.eq.Admits [x.type?, y.type?] ↔
    Opcode.jumpIfEq.Admits [x.type?, y.type?] ∨ x.OneNil y := by
  rw [admits_eq_iff]
  change _ ↔ (∃ t, _) ∨ _
  rw [admits_jumpIf_iff]
  cases x <;> cases y <;> simp [Value.type?, Value.OneNil]

theorem not_admits_jump_of_oneNil (h : x.OneNil y) :
    ¬ Opcode.jumpIfEq.Admits [x.type?, y.type?] := by
  change ¬ ∃ t, _
  rw [admits_jumpIf_iff]
  rcases h with ⟨rfl, h⟩ | ⟨rfl, h⟩
  · cases y <;> simp_all [Value.type?]
  · cases x <;> simp_all [Value.type?]

theorem ne_of_oneNil (h : x.OneNil y) : x ≠ y := by
  rcases h with ⟨rfl, h, _⟩ | ⟨rfl, h, _⟩
  · exact h.symm
  · exact h

end Operator

namespace Machine

variable {ρ σ : Type} {p : Program} {m : Machine ρ σ} {target : String} {a b : Symbol}
  {x y : Value} {k : Nat} {t : VarRef}

/-- What two jumps that test for opposite things do with values that a jump compares: both refuse
their types, or one of them leads to the label and the other one goes on. -/
inductive Opposed (m : Machine ρ σ) (k : Nat) (x y : Value) : Outcome ρ σ → Outcome ρ σ → Prop
  | refused {f g : Fault} (hf : f.kind = .operandType) (hg : g.kind = .operandType) :
    Opposed m k x y (.fault f m) (.fault g m)
  | equal (h : x = y) : Opposed m k x y (.jump k m) (.next m)
  | different (h : x ≠ y) : Opposed m k x y (.next m) (.jump k m)

theorem jumpTest_of_values (op : Opcode) (hk : p.label target = .ok k) (ha : m.value a = .ok x)
    (hb : m.value b = .ok y) :
    m.jumpTest p op target a b = (Operator.jumpEquals op x y).map fun r => (k, r) := by
  simp only [jumpTest, hk, ha, hb]
  change (Operator.jumpEquals op x y >>= fun r => pure (k, r)) = _
  cases Operator.jumpEquals op x y <;> rfl

variable [Reader ρ] [Writer σ]

/-! ## A jump -/

theorem exec_jumpIf_of_admits (order : Int64) (equal : Bool) (hk : p.label target = .ok k)
    (ha : m.value a = .ok x) (hb : m.value b = .ok y)
    (h : Opcode.jumpIfEq.Admits [x.type?, y.type?]) :
    m.exec p ⟨order, .jumpIf equal target a b⟩ =
      if decide (x = y) = equal then .jump k m else .next m := by
  have htest : m.jumpTest p (Command.jumpIf equal target a b).opcode target a b =
      .ok (k, decide (x = y)) := by
    rw [jumpTest_of_values _ hk ha hb, Operator.jumpEquals_eq_ok_iff.2 ⟨h, rfl⟩]
    rfl
  simp only [exec, htest]

theorem exec_jumpIf_of_not_admits (order : Int64) (equal : Bool) (hk : p.label target = .ok k)
    (ha : m.value a = .ok x) (hb : m.value b = .ok y)
    (h : ¬ Opcode.jumpIfEq.Admits [x.type?, y.type?]) :
    ∃ f, m.exec p ⟨order, .jumpIf equal target a b⟩ = .fault f m ∧ f.kind = .operandType := by
  obtain ⟨f, hf, hkind⟩ := Operator.jumpEquals_inadmissible h
  have htest : m.jumpTest p (Command.jumpIf equal target a b).opcode target a b = .error f := by
    rw [jumpTest_of_values _ hk ha hb, hf]
    rfl
  exact ⟨f, exec_of_rule (.notTested htest), hkind⟩

theorem opposed_jumps (order : Int64) (hk : p.label target = .ok k) (ha : m.value a = .ok x)
    (hb : m.value b = .ok y) :
    Opposed m k x y (m.exec p ⟨order, .jumpIf true target a b⟩)
      (m.exec p ⟨order, .jumpIf false target a b⟩) := by
  by_cases h : Opcode.jumpIfEq.Admits [x.type?, y.type?]
  · rw [exec_jumpIf_of_admits order true hk ha hb h, exec_jumpIf_of_admits order false hk ha hb h]
    by_cases hxy : x = y
    · simp only [hxy, decide_true, if_true]
      exact .equal rfl
    · simp only [hxy, decide_false, Bool.false_eq_true, if_false, if_true]
      exact .different hxy
  · obtain ⟨f, hf, hfkind⟩ := exec_jumpIf_of_not_admits order true hk ha hb h
    obtain ⟨g, hg, hgkind⟩ := exec_jumpIf_of_not_admits order false hk ha hb h
    rw [hf, hg]
    exact .refused hfkind hgkind

theorem exec_jumpIf_of_undefined (order : Int64) (equal : Bool) {f : Fault}
    (h : p.label target = .error f) (a b : Symbol) :
    m.exec p ⟨order, .jumpIf equal target a b⟩ = .fault f m := by
  have htest : m.jumpTest p (Command.jumpIf equal target a b).opcode target a b = .error f :=
    Except.bind_eq_error.2 (.inl h)
  exact exec_of_rule (.notTested htest)

/-! ## A comparison and a jump -/

theorem exec_eq_of_admits (order : Int64) (ha : m.value a = .ok x) (hb : m.value b = .ok y)
    (ht : m.memory.Has t) (h : Opcode.eq.Admits [x.type?, y.type?]) :
    ∃ memory, m.exec p ⟨order, .binary .eq t a b⟩ = .next { m with memory } ∧
      memory.load t = .ok (.bool (decide (x = y))) := by
  obtain ⟨⟨hx, hy⟩, _⟩ := Operator.admits_eq_iff.1 h
  have hresult : BinaryOp.eq.apply x y = .ok (.bool (decide (x = y))) :=
    Except.map_eq_ok.2 ⟨_, Operator.equals_eq_ok_iff.2 ⟨h, rfl⟩, rfl⟩
  exact exec_binary order .eq (source_eq_ok_iff.2 ⟨ha, hx⟩) (source_eq_ok_iff.2 ⟨hb, hy⟩) hresult ht

theorem exec_eq_of_not_admits (order : Int64) (t : VarRef) (ha : m.value a = .ok x)
    (hb : m.value b = .ok y) (h : ¬ Opcode.eq.Admits [x.type?, y.type?]) :
    ∃ f, m.exec p ⟨order, .binary .eq t a b⟩ = .fault f m ∧ f.kind = .operandType := by
  have hc : ∃ f, m.computed (.binary .eq t a b) = some (t, .error f) ∧ f.kind = .operandType := by
    -- an unassigned operand is refused when it is read, before the values are compared
    by_cases hx : x = .uninit
    · subst hx
      rw [computed, source_eq_error_iff.2 (.unassigned ha)]
      exact ⟨_, rfl, rfl⟩
    · rw [computed, source_eq_ok_iff.2 ⟨ha, hx⟩]
      by_cases hy : y = .uninit
      · subst hy
        rw [source_eq_error_iff.2 (.unassigned hb)]
        exact ⟨_, rfl, rfl⟩
      · obtain ⟨f, hf, hkind⟩ := Operator.equals_inadmissible h
        rw [source_eq_ok_iff.2 ⟨hb, hy⟩]
        exact ⟨f, congrArg (fun r => some (t, r)) (Except.map_eq_error.2 hf), hkind⟩
  obtain ⟨f, hc, hkind⟩ := hc
  exact ⟨f, exec_of_rule (.notComputed hc), hkind⟩

theorem course_eq_jumpIf_of_admits (order order' : Int64) (hk : p.label target = .ok k)
    (ha : m.value a = .ok x) (hb : m.value b = .ok y) (ht : m.memory.Has t)
    (h : Opcode.eq.Admits [x.type?, y.type?]) :
    (m.execRow p ⟨order, .binary .eq t a b⟩
      [⟨order', .jumpIf true target (.var t) (.const (.bool true))⟩]).course =
        if x = y then .jump k else .next := by
  obtain ⟨memory, hexec, hload⟩ := exec_eq_of_admits (p := p) order ha hb ht h
  have hvalue : (advanced { m with memory }).value (.var t) = .ok (.bool (decide (x = y))) := hload
  have htrue : (advanced { m with memory }).value (.const (.bool true)) = .ok (.bool true) := rfl
  have htypes : Opcode.jumpIfEq.Admits
      [(Value.bool (decide (x = y))).type?, (Value.bool true).type?] := ⟨.bool, rfl⟩
  rw [execRow_of_next hexec, execRow, exec_jumpIf_of_admits order' true hk hvalue htrue htypes]
  by_cases hxy : x = y <;> simp [hxy, Outcome.course]

/-- To compare with `EQ` and to jump if the result is true is to jump if the values are equal, but
for nil against another value. -/
theorem course_eq_jumpIf (order order' : Int64) (hk : p.label target = .ok k)
    (ha : m.value a = .ok x) (hb : m.value b = .ok y) (ht : m.memory.Has t) :
    (m.execRow p ⟨order, .binary .eq t a b⟩
      [⟨order', .jumpIf true target (.var t) (.const (.bool true))⟩]).course =
        if x.OneNil y then .next
        else (m.exec p ⟨order, .jumpIf true target a b⟩).course := by
  by_cases hnil : x.OneNil y
  · rw [if_pos hnil, course_eq_jumpIf_of_admits order order' hk ha hb ht
      (Operator.admits_eq_iff_jump.2 (.inr hnil)), if_neg (Operator.ne_of_oneNil hnil)]
  · rw [if_neg hnil]
    by_cases hj : Opcode.jumpIfEq.Admits [x.type?, y.type?]
    · rw [course_eq_jumpIf_of_admits order order' hk ha hb ht
        (Operator.admits_eq_iff_jump.2 (.inl hj)), exec_jumpIf_of_admits order true hk ha hb hj]
      by_cases hxy : x = y <;> simp [hxy, Outcome.course]
    · have he : ¬ Opcode.eq.Admits [x.type?, y.type?] := by
        rw [Operator.admits_eq_iff_jump]
        exact not_or.2 ⟨hj, hnil⟩
      obtain ⟨f, hf, hfkind⟩ := exec_eq_of_not_admits (p := p) order t ha hb he
      obtain ⟨g, hg, hgkind⟩ := exec_jumpIf_of_not_admits order true hk ha hb hj
      rw [execRow_of_fault hf, hg]
      exact congrArg Course.fault (hfkind.trans hgkind.symm)

/-- The two jumps on one pair of values both fail because of types, or the one that tests for
equality leads to the label exactly if the values are equal, and the other one otherwise. To compare
with `EQ` first and to jump if the result is true leads to the same or fails alike, except exactly
if one of the values is nil and the other one is not: then it goes on, where the jump fails because
of types. A label that is not defined is found before the operands are looked at, whatever they
are. -/
theorem jumps_agree_with_eq {is : List Instruction} (hp : Program.ofInstructions is = .ok p)
    (m : Machine ρ σ) (target : String) (a b : Symbol) (order order' : Int64) :
    (∀ k line x y, p.line? k = some line → line.command = .label target →
      m.value a = .ok x → m.value b = .ok y →
      Opposed m k x y (m.exec p ⟨order, .jumpIf true target a b⟩)
        (m.exec p ⟨order, .jumpIf false target a b⟩) ∧
      (x.OneNil y →
        (m.exec p ⟨order, .jumpIf true target a b⟩).course = .fault .operandType) ∧
      ∀ t, m.memory.Has t →
        (m.execRow p ⟨order, .binary .eq t a b⟩
          [⟨order', .jumpIf true target (.var t) (.const (.bool true))⟩]).course =
            if x.OneNil y then .next
            else (m.exec p ⟨order, .jumpIf true target a b⟩).course) ∧
      ((∀ k line, p.line? k = some line → line.command ≠ .label target) →
        ∀ equal, ∃ f, m.exec p ⟨order, .jumpIf equal target a b⟩ = .fault f m ∧
          f.kind = .semantic) := by
  refine ⟨?_, ?_⟩
  · intro k line x y hline hlabel ha hb
    have hk : p.label target = .ok k := (Program.label_eq_ok_iff hp).2 ⟨line, hline, hlabel⟩
    refine ⟨opposed_jumps order hk ha hb, ?_, fun t => course_eq_jumpIf order order' hk ha hb⟩
    intro hnil
    obtain ⟨f, hf, hkind⟩ :=
      exec_jumpIf_of_not_admits order true hk ha hb (Operator.not_admits_jump_of_oneNil hnil)
    rw [hf]
    exact congrArg Course.fault hkind
  · intro hundefined equal
    cases hk : p.label target with
    | ok k =>
      obtain ⟨line, hline, hlabel⟩ := (Program.label_eq_ok_iff hp).1 hk
      exact absurd hlabel (hundefined k line hline)
    | error f => exact ⟨f, exec_jumpIf_of_undefined order equal hk a b, kind_of_label hk⟩

/-- Nil and a number, compared by lines of a program and by a jump. -/
theorem jumps_agree_with_eq_nil :
    ∃ (p : Program) (m : Machine) (o : Outcome),
      Program.ofInstructions [⟨1, .defVar, [.symbol (.var ⟨.gf, "t"⟩)]⟩,
        ⟨2, .eq, [.symbol (.var ⟨.gf, "t"⟩), .symbol (.const .nil), .symbol (.const (.int 1))]⟩,
        ⟨3, .jumpIfEq, [.label "end", .symbol (.var ⟨.gf, "t"⟩), .symbol (.const (.bool true))]⟩,
        ⟨4, .brk, []⟩, ⟨5, .label, [.label "end"]⟩] = .ok p ∧
      (start ⟨[]⟩ (.empty none) (.empty none) : Machine).run p 1 = .running m ∧
      (∃ n ≤ 1, m.run p (n + 1) = o.progress) ∧ o.course = .next ∧
      (m.exec p ⟨2, .jumpIf true "end" (.const .nil) (.const (.int 1))⟩).course =
        .fault .operandType := by
  let t : VarRef := ⟨.gf, "t"⟩
  let comparison : Line := ⟨2, .binary .eq t (.const .nil) (.const (.int 1))⟩
  let jump : Line := ⟨3, .jumpIf true "end" (.var t) (.const (.bool true))⟩
  let p : Program :=
    ⟨#[⟨1, .defVar t⟩, comparison, jump, ⟨4, .brk⟩, ⟨5, .label "end"⟩], [("end", 4)]⟩
  have hp : Program.ofInstructions _ = .ok p :=
    Program.ofInstructions_of_perm p.lines.toList (.refl _) (by decide) (by decide) rfl
  let m : Machine := ((start ⟨[]⟩ (.empty none) (.empty none) : Machine).run p 1).machine
  have hstands : p.StandsAt m.pc [comparison, jump] := ⟨rfl, rfl, trivial⟩
  have hdeclared : m.memory.Has t := ⟨m.memory.global, rfl, by decide⟩
  have hnil : Value.nil.OneNil (.int 1) := by decide
  obtain ⟨hdefined, _⟩ := jumps_agree_with_eq hp m "end" (.const .nil) (.const (.int 1)) 2 3
  obtain ⟨_, hjump, hrow⟩ := hdefined 4 _ _ _ rfl rfl rfl rfl
  refine ⟨p, m, _, hp, rfl, exists_run_eq_execRow hstands, ?_, hjump hnil⟩
  rw [hrow t hdeclared, if_pos hnil]

end Machine

end Ippcode
