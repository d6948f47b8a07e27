import Ippcode.Proofs.Inert
import Ippcode.Proofs.Reentry
import Ippcode.Proofs.Footprint
import Ippcode.Proofs.Traces

/-! # Documents that are refused

A document is refused while it is loaded or while its instructions are made into a program, before
anything is read or written. The faults of a refusal are of three kinds, and a run of a program that
was accepted ends in none of them, but for a jump to a label that does not exist. So two of the
kinds always mean that nothing ran, and anything that is read or written that the document was
accepted.
-/
namespace Ippcode

/-- The reader or a writer is called. -/
def Event.IsCall : Event → Prop
  | .requested .. | .printed .. => True
  | _ => False

/-- The type of the value that an event requests. -/
def Event.requested? : Event → Option DataType
  | .requested type _ => some type
  | _ => none

/-- A reader after values have been requested of it one by one. -/
def Reader.after {ρ : Type} [Reader ρ] (r : ρ) (types : List DataType) : ρ :=
  types.foldl (fun r type => (Reader.read type r).2) r

/-! ## Faults of loading -/

theorem DataType.kind_of_ofText {text : String} {f : Fault} (h : ofText text = .error f) :
    f.kind = .programStructure := by
  unfold ofText at h
  split at h <;> cases h
  rfl

theorem VarRef.kind_of_ofText {text : String} {f : Fault} (h : ofText text = .error f) :
    f.kind = .programStructure := by
  unfold ofText at h
  split at h
  · cases h
    rfl
  · split at h
    · cases h
      rfl
    · split at h <;> cases h
      rfl

namespace Argument

variable {text : String} {f : Fault}

theorem kind_of_ofInt (h : ofInt text = .error f) : f.kind = .programStructure := by
  unfold ofInt at h
  split at h <;> cases h
  rfl

theorem kind_of_ofBool (h : ofBool text = .error f) : f.kind = .programStructure := by
  unfold ofBool at h
  split at h <;> cases h
  rfl

theorem kind_of_ofNil (h : ofNil text = .error f) : f.kind = .programStructure := by
  unfold ofNil at h
  split at h <;> cases h
  rfl

theorem kind_of_ofLabel (h : ofLabel text = .error f) : f.kind = .programStructure := by
  unfold ofLabel at h
  split at h <;> cases h
  rfl

theorem kind_of_ofText {kind : String} (h : ofText kind text = .error f) :
    f.kind = .programStructure := by
  unfold ofText at h
  split at h
  · exact kind_of_ofInt h
  · exact kind_of_ofBool h
  · cases h
  · exact kind_of_ofNil h
  · exact VarRef.kind_of_ofText (Except.map_eq_error.1 h)
  · exact kind_of_ofLabel h
  · exact DataType.kind_of_ofText (Except.map_eq_error.1 h)
  · cases h
    rfl

end Argument

namespace Document

variable {f : Fault}

theorem InstructionRecord.kind_of_instruction {r : InstructionRecord}
    (h : r.instruction = .error f) : f.kind = .programStructure := by
  unfold instruction at h
  split at h
  · cases h
    rfl
  · obtain hargs | ⟨args, _, hmake⟩ := Except.bind_eq_error.1 h
    · obtain ⟨_, a, _, _, _, ha⟩ := Except.mapM_eq_error_iff.1 hargs
      exact Argument.kind_of_ofText ha
    · simp only [Instruction.make] at hmake
      split at hmake
      next hfault =>
        cases hmake
        exact Instruction.kind_of_fault? hfault
      next => cases hmake

theorem kind_of_load {d : Document} (h : d.load = .error f) : f.kind = .programStructure := by
  obtain hlanguage | ⟨_, _, hrecords⟩ := Except.bind_eq_error.1 h
  · unfold checkLanguage at hlanguage
    split at hlanguage
    · cases hlanguage
    · split at hlanguage <;> cases hlanguage
      rfl
  · obtain ⟨_, r, _, _, _, hr⟩ := Except.mapM_eq_error_iff.1 hrecords
    exact r.kind_of_instruction hr

theorem kind_of_ofText {text : String} (h : ofText text = .error f) : f.kind = .sourceFormat := by
  unfold ofText at h
  split at h
  · cases h
    rfl
  · split at h <;> cases h
    rfl

theorem kind_of_loadText {text : String} (h : loadText text = .error f) :
    f.kind ∈ [.sourceFormat, .programStructure] := by
  unfold loadText at h
  cases hd : ofText text with
  | ok d =>
    rw [hd] at h
    have hk := kind_of_load h
    simp [hk]
  | error g =>
    rw [hd] at h
    cases h
    simp [kind_of_ofText hd]

end Document

/-- A list of instructions is refused for its structure or for a label that is declared again. -/
theorem Program.cases_of_error {is : List Instruction} {f : Fault}
    (h : ofInstructions is = .error f) :
    f.kind = .programStructure ∨ ∃ name, f = .labelExists name := by
  have hrefused := refused_of_error h
  generalize f.kind = kind at hrefused
  cases hrefused with
  | misfit | notPositive | repeatedOrder => exact .inl rfl
  | repeatedLabel => exact .inr ⟨_, rfl⟩

theorem Program.cases_of_ofText_error {text : String} {f : Fault} (h : ofText text = .error f) :
    f.kind ∈ [.sourceFormat, .programStructure] ∨ ∃ name, f = .labelExists name := by
  unfold ofText at h
  cases hload : Document.loadText text with
  | error g =>
    rw [hload] at h
    cases h
    exact .inl (Document.kind_of_loadText hload)
  | ok is =>
    rw [hload] at h
    obtain hk | hname := cases_of_error h
    · simp [hk]
    · exact .inr hname

theorem Program.exists_of_ofText {text : String} {p : Program} (h : ofText text = .ok p) :
    ∃ is, Document.loadText text = .ok is ∧ ofInstructions is = .ok p := by
  unfold ofText at h
  cases hload : Document.loadText text with
  | error g =>
    rw [hload] at h
    cases h
  | ok is =>
    rw [hload] at h
    exact ⟨is, rfl, h⟩

/-! ## Faults of a run -/

theorem Opcode.target_of_semantic {op : Opcode} (h : .semantic ∈ op.faultKinds) :
    op ∈ [.call, .jump, .jumpIfEq, .jumpIfNeq] := by
  revert h
  cases op <;> decide

namespace Machine

variable {ρ σ : Type} [Reader ρ] [Writer σ] {p : Program} {m m' : Machine ρ σ} {f : Fault}

omit [Reader ρ] [Writer σ] in
theorem eq_labelMissing_of_jumpTest {op : Opcode} {target : String} {a b : Symbol}
    (h : m.jumpTest p op target a b = .error f) (hk : f.kind = .semantic) :
    f = .labelMissing target := by
  simp only [jumpTest, Except.bind_eq_error] at h
  obtain h | ⟨k, _, h | ⟨x, _, h | ⟨y, _, h | ⟨r, _, h⟩⟩⟩⟩ := h
  · exact Program.eq_labelMissing_of_label h
  · have haccess := kind_of_value h
    simp [hk, FaultKind.access] at haccess
  · have haccess := kind_of_value h
    simp [hk, FaultKind.access] at haccess
  · have htype := Operator.kind_of_jumpEquals h
    simp [hk] at htype
  · cases h

/-- While a program runs, the one thing wrong with its labels is that one is not there. -/
theorem Rule.eq_labelMissing {order : Int64} {c : Command} (h : Rule p order m c (.fault f m'))
    (hk : f.kind = .semantic) : ∃ name, f = .labelMissing name := by
  have htarget := Opcode.target_of_semantic (hk ▸ kind_of_rule h)
  cases h with
  | notCalled h | notJumped h => exact ⟨_, Program.eq_labelMissing_of_label h⟩
  | notTested h => exact ⟨_, eq_labelMissing_of_jumpTest h hk⟩
  | notComputed hc | notAssigned hc =>
    exact absurd htarget (not_mem_of_computed hc (by decide))
  | _ => simp [Command.opcode] at htarget

theorem exists_step_of_over {n : Nat} (h : (m.run p n).Over) :
    ∃ last : Machine ρ σ, m.run p n = last.step p := by
  induction n generalizing m with
  | zero => exact h.elim
  | succ n ih =>
    obtain ⟨m₁, _, hrun⟩ | ⟨_, hrun⟩ := run_succ_cases p m n
    · rw [hrun] at h ⊢
      exact ih h
    · exact ⟨m, hrun⟩

/-- No run fails in a way in which a document is refused. -/
theorem not_refusal_of_run {n : Nat} (h : m.run p n = .failed f m') :
    f.kind ∉ FaultKind.beforeRun ∧ ∀ name, f ≠ .labelExists name := by
  have hover : (m.run p n).Over := by simp [h, Progress.Over]
  obtain ⟨last, hlast⟩ := exists_step_of_over hover
  rw [h] at hlast
  obtain ⟨line, _, hr⟩ := rule_of_failed hlast.symm
  refine ⟨Opcode.faultKinds_disjoint _ _ (kind_of_rule hr), ?_⟩
  rintro name rfl
  obtain ⟨_, heq⟩ := hr.eq_labelMissing rfl
  cases heq

/-! ## Calls -/

theorem requests_events (line : Line) :
    Reader.after m.input ((m.events p line).filterMap Event.requested?) =
      m.inputAfter line.command := by
  obtain ⟨order, c⟩ := line
  unfold events
  cases c with
  | write src | dPrint src =>
    change Reader.after m.input ((m.printEvents _ src).filterMap Event.requested?) = m.input
    rw [filterMap_printEvents fun _ _ => rfl]
    rfl
  | pushFrame | popFrame => cases m.exec p _ <;> rfl
  | _ => rfl

/-- The input is after a step what the requests of the step make of it. -/
theorem input_of_step (m : Machine ρ σ) :
    (m.step p).machine.input =
      Reader.after m.input ((m.stepEvents p).filterMap Event.requested?) := by
  unfold stepEvents
  cases hl : p.line? m.pc with
  | none =>
    rw [step_of_end hl]
    rfl
  | some line =>
    obtain ⟨o, hr, ho⟩ := rule_of_line hl
    rw [requests_events, ho]
    cases o with
    | next n | jump _ n | exit _ n =>
      have hinput : n.input = _ := hr.input_of_done rfl
      exact hinput
    | fault f n => exact hr.effect_of_fault.input

theorem input_run (p : Program) (m : Machine ρ σ) (n : Nat) :
    (m.run p n).machine.input =
      Reader.after m.input ((m.trace p n).filterMap Event.requested?) := by
  induction n generalizing m with
  | zero => rfl
  | succ n ih =>
    have hstep := input_of_step (p := p) m
    unfold run trace
    cases hs : m.step p with
    | running m' =>
      rw [hs] at hstep
      change m'.input = _ at hstep
      simp only [ih]
      rw [hstep, List.filterMap_append, Reader.after, Reader.after, Reader.after,
        List.foldl_append]
    | ended | failed =>
      rw [hs] at hstep
      simpa using hstep

/-- What is not called stays as it is. -/
theorem devices_run_of_no_call {n : Nat} (h : ∀ e ∈ m.trace p n, ¬ e.IsCall) :
    (m.run p n).machine.input = m.input ∧ ∀ c, (m.run p n).machine.sink c = m.sink c := by
  have hrequests : (m.trace p n).filterMap Event.requested? = [] := by
    refine List.filterMap_eq_nil_iff.2 ?_
    intro e he
    have hnot := h e he
    cases e <;> simp_all [Event.IsCall, Event.requested?]
  have hhanded : ∀ c, Event.handed c (m.trace p n) = [] := by
    intro c
    refine List.filterMap_eq_nil_iff.2 ?_
    intro e he
    have hnot := h e he
    cases e <;> simp_all [Event.IsCall, Event.handed?]
  constructor
  · rw [input_run, hrequests]
    rfl
  · intro c
    rw [sink_run, hhanded]
    rfl

end Machine

/-! ## Executing a document -/

variable {ρ σ : Type} [Reader ρ] [Writer σ]

/-- The events of executing a document: those of its program, if it has one. -/
def executeEvents (text : String) (fuel : Nat) (m : Machine ρ σ) : List Event :=
  match Program.ofText text with
  | .error _ => []
  | .ok p => p.loadedEvent :: m.trace p fuel

/-- A document that is refused for its format, its structure or a label that it declares again is
refused before anything is read or written, and nothing changes. If the reader or a writer is
called, or if there is a result other than such a refusal or a label that does not exist, then the
document was loaded and its instructions were accepted. The calls are all that there is to the
devices: where there are none, they stay as they are. -/
theorem refused_without_effects (text : String) (n : Nat) (m : Machine ρ σ) :
    (∀ f m', execute text n m = .failed f m' →
      f.kind ∈ [.sourceFormat, .programStructure] ∨ (∃ name, f = .labelExists name) →
        m' = m ∧ ∀ e ∈ executeEvents text n m, ¬ e.IsCall) ∧
      ((∃ e ∈ executeEvents text n m, e.IsCall) ∨ (∃ status m', execute text n m = .ended status m') ∨
          (∃ f m', execute text n m = .failed f m' ∧
            f.kind ∉ [.sourceFormat, .programStructure, .semantic]) →
        ∃ is p, Document.loadText text = .ok is ∧ Program.ofInstructions is = .ok p) ∧
      ((∀ e ∈ executeEvents text n m, ¬ e.IsCall) →
        (execute text n m).machine.input = m.input ∧
          ∀ c, (execute text n m).machine.sink c = m.sink c) := by
  cases hp : Program.ofText text with
  | error g =>
    have hexecute : execute text n m = .failed g m := by simp only [execute, hp]
    have hevents : executeEvents text n m = [] := by simp only [executeEvents, hp]
    rw [hexecute, hevents]
    refine ⟨?_, ?_, ?_⟩
    · rintro f m' heq _
      cases heq
      simp
    · rintro (⟨e, he, _⟩ | ⟨status, m', heq⟩ | ⟨f, m', heq, hkind⟩)
      · cases he
      · cases heq
      · cases heq
        obtain hk | ⟨name, rfl⟩ := Program.cases_of_ofText_error hp
        · have hsub : [FaultKind.sourceFormat, .programStructure] ⊆
              [.sourceFormat, .programStructure, .semantic] := by decide
          exact absurd (hsub hk) hkind
        · exact absurd (by simp [Fault.kind]) hkind
    · exact fun _ => ⟨rfl, fun _ => rfl⟩
  | ok p =>
    have hexecute : execute text n m = m.run p n := by simp only [execute, hp]
    have hevents : executeEvents text n m = p.loadedEvent :: m.trace p n := by
      simp only [executeEvents, hp]
    rw [hexecute, hevents]
    refine ⟨?_, ?_, ?_⟩
    · intro f m' hrun hrefusal
      obtain ⟨hkind, hname⟩ := Machine.not_refusal_of_run hrun
      obtain hk | ⟨name, rfl⟩ := hrefusal
      · have hsub : [FaultKind.sourceFormat, .programStructure] ⊆ FaultKind.beforeRun := by decide
        exact absurd (hsub hk) hkind
      · exact absurd rfl (hname name)
    · intro _
      obtain ⟨is, hload, hprogram⟩ := Program.exists_of_ofText hp
      exact ⟨is, p, hload, hprogram⟩
    · intro hcalls
      exact Machine.devices_run_of_no_call fun e he => hcalls e (List.mem_cons_of_mem _ he)

/-- A label that is declared twice keeps the line before it from writing anything. -/
theorem refused_without_effects_label :
    ∃ text, execute text 9 (.start ⟨[]⟩ (.empty none) (.empty none) : Machine) =
        .failed (.labelExists "x") (.start ⟨[]⟩ (.empty none) (.empty none)) ∧
      ∀ e ∈ executeEvents text 9 (.start ⟨[]⟩ (.empty none) (.empty none) : Machine), ¬ e.IsCall := by
  let text := "[null, [[1, \"WRITE\", [[\"string\", \"a\"]]], " ++
    "[2, \"LABEL\", [[\"label\", \"x\"]]], [3, \"LABEL\", [[\"label\", \"x\"]]]]]"
  let is : List Instruction := [⟨1, .write, [.symbol (.const (.str "a"))]⟩,
    ⟨2, .label, [.label "x"]⟩, ⟨3, .label, [.label "x"]⟩]
  have hload : Document.loadText text = .ok is := by decide +kernel
  have hfirst : Instruction.FirstRepeat is ⟨3, .label, [.label "x"]⟩ "x" :=
    ⟨by decide, by decide, by decide, by decide⟩
  have hrefused : Program.ofInstructions is = .error (.labelExists "x") :=
    Program.error_of_refused (.repeatedLabel (by decide) (by decide) (by decide) hfirst)
  have hexecute : ∀ m : Machine, execute text 9 m = .failed (.labelExists "x") m := by
    intro m
    rw [execute_eq_launch hload, Machine.launch_of_error hrefused]
  refine ⟨text, hexecute _, ?_⟩
  let m : Machine := .start ⟨[]⟩ (.empty none) (.empty none)
  obtain ⟨hnone, _⟩ := refused_without_effects text 9 m
  exact (hnone _ _ (hexecute _) (.inr ⟨"x", rfl⟩)).2

end Ippcode
