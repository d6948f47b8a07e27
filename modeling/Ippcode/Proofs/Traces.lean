import Ippcode.Proofs.Likeness
import Ippcode.Session

/-! # The same steps

Alike runs whose lines stand at the same positions and whose stacks are as deep take the same steps.
Their traces differ in the orders of the lines and in what breaks dump, and so do their diagnostics;
nothing else of them differs but names.
-/
namespace Ippcode

def Event.reorder (order : Int64 → Int64) : Event → Event
  | .began pc o op => .began pc (order o) op
  | e => e

/-- Traces of the same steps, taken by lines of other orders. What a break dumps may differ. -/
inductive Traced (order : Int64 → Int64) (Dumped : Int64 → String → String → Prop) :
    List Event → List Event → Prop
  | nil : Traced order Dumped [] []
  | same (e : Event) {t u : List Event} (h : Traced order Dumped t u) :
    Traced order Dumped (e :: t) (e.reorder order :: u)
  | dumped (pc : Nat) {o : Int64} {text text' : String} {t u : List Event}
    (hd : Dumped o text text') (h : Traced order Dumped t u) :
    Traced order Dumped (.began pc o .brk :: .printed .err (.str text) :: t)
      (.began pc (order o) .brk :: .printed .err (.str text') :: u)

namespace Traced

variable {order : Int64 → Int64} {D D' : Int64 → String → String → Prop} {t u t' u' : List Event}

theorem append (h : Traced order D t u) (h' : Traced order D t' u') :
    Traced order D (t ++ t') (u ++ u') := by
  induction h with
  | nil => exact h'
  | same e _ ih => exact .same e ih
  | dumped pc hd _ ih => exact .dumped pc hd ih

theorem mono (hD : ∀ o text text', D o text text' → D' o text text') (h : Traced order D t u) :
    Traced order D' t u := by
  induction h with
  | nil => exact .nil
  | same e _ ih => exact .same e ih
  | dumped pc hd _ ih => exact .dumped pc (hD _ _ _ hd) ih

/-- Events that tell of no order are the same. -/
theorem of_unordered (h : ∀ e ∈ t, e.reorder order = e) : Traced order D t t := by
  induction t with
  | nil => exact .nil
  | cons e t ih =>
    obtain ⟨he, ht⟩ := List.forall_mem_cons.1 h
    have hsame := Traced.same e (ih ht)
    rwa [he] at hsame

end Traced

/-- Lines stand at the same positions, and stacks are as deep. -/
structure Likeness.Level (φ : Likeness) : Prop where
  position : φ.position = id
  calls : φ.calls = []
  operands : φ.operands = []
  locals : φ.locals = []

variable {φ : Likeness}

theorem Likeness.Level.not_hides (hφ : φ.Level) (f : Fault) : ¬ φ.Hides f := by
  rintro ⟨hcalls | hoperands | hlocals, _⟩
  · exact hcalls hφ.calls
  · exact hoperands hφ.operands
  · exact hlocals hφ.locals

variable {ρ σ : Type} [Writer σ]

/-- Texts that a break dumps in alike states. -/
def Likeness.Dumps (φ : Likeness) (ρ σ : Type) [Writer σ] (o : Int64) (text text' : String) :
    Prop :=
  ∃ a b : Machine ρ σ, a.Like φ b ∧ text = a.dump o ∧ text' = b.dump (φ.order o)

omit [Writer σ] in
theorem Machine.reorder_of_printEvents {m : Machine ρ σ} {c : Channel} {s : Symbol} {e : Event}
    {order : Int64 → Int64} (h : e ∈ m.printEvents c s) : e.reorder order = e := by
  unfold Machine.printEvents at h
  cases hv : m.copied s with
  | error f => simp [hv] at h
  | ok v =>
    simp only [hv, Option.mem_toList, Option.map_eq_some_iff] at h
    obtain ⟨x, _, rfl⟩ := h
    rfl

namespace Machine.Like

variable {a b : Machine ρ σ} (h : a.Like φ b) (hφ : φ.Level)
include h hφ

theorem depth : b.memory.depth = a.memory.depth := by
  simp [h.memory, Memory.depth, Likeness.memory, hφ.locals]

theorem printEvents (c : Channel) (s : Symbol) :
    b.printEvents c (φ.names.symbol s) = a.printEvents c s := by
  have hs := h.copied s
  unfold Machine.printEvents
  generalize a.copied s = r, b.copied (φ.names.symbol s) = r' at hs
  cases hs with
  | ok hv => rw [hv]
  | error f => rfl
  | hidden hf => exact absurd hf (hφ.not_hides _)

theorem began {line : Line} : Event.began b.pc (φ.line line).order (φ.line line).command.opcode =
    (Event.began a.pc line.order line.command.opcode).reorder φ.order := by
  simp [Event.reorder, Likeness.line, h.pc, hφ.position]

variable [Reader ρ] {p q : Program} {line : Line}

theorem events (hs : Shown φ p q a.pc line) :
    Traced φ.order (φ.Dumps ρ σ) (a.events p line) (b.events q (φ.line line)) := by
  unfold Machine.events
  rw [h.began hφ]
  obtain ⟨order, c⟩ := line
  cases c with
  | brk => exact .dumped a.pc ⟨a, b, h, rfl, rfl⟩ .nil
  | pushFrame | popFrame =>
    refine .same _ ?_
    have ho := h.exec hs
    simp only [Likeness.line, Renaming.command] at ho ⊢
    generalize a.exec p _ = o, b.exec q _ = o' at ho
    cases ho with
    | next ho =>
      simp only [ho.depth hφ]
      exact .of_unordered (by simp [Event.reorder])
    | jump | exit | fault => exact .nil
    | hidden hf => exact absurd hf (hφ.not_hides _)
  | read dst type =>
    refine .same _ ?_
    simp only [Likeness.line, Renaming.command, h.input]
    exact .of_unordered (by simp [Event.reorder])
  | write src | dPrint src =>
    refine .same _ ?_
    simp only [Likeness.line, Renaming.command, h.printEvents hφ]
    exact .of_unordered fun _ => reorder_of_printEvents
  | _ => exact .same _ .nil

theorem stepEvents (hpq : p.Like φ q) :
    Traced φ.order (φ.Dumps ρ σ) (a.stepEvents p) (b.stepEvents q) := by
  unfold Machine.stepEvents
  cases hl : p.line? a.pc with
  | some line =>
    have hs := hpq.shown _ _ hl
    rw [h.pc, hs.found]
    exact h.events hφ hs
  | none =>
    rw [h.pc, hpq.ended _ hl]
    exact .nil

theorem trace (hpq : p.Like φ q) (n : Nat) :
    Traced φ.order (φ.Dumps ρ σ) (a.trace p n) (b.trace q n) := by
  induction n generalizing a b with
  | zero => exact .nil
  | succ n ih =>
    refine (h.stepEvents hφ hpq).append ?_
    have hstep := h.step_of_program hpq
    generalize a.step p = r, b.step q = r' at hstep
    cases hstep with
    | running hstep => exact ih hstep
    | ended | failed => exact .nil
    | hidden hf => exact absurd hf (hφ.not_hides _)

/-- The states of alike runs are alike, and the diagnostics are what is handed to them. -/
theorem run_eq (hpq : p.Like φ q) (n : Nat) :
    b.run q n = (a.run p n).map φ.names.fault
      (φ.machine (Writer.after b.stderr (Event.handed .err (b.trace q n)))) := by
  have hrun := (h.run hpq n).eq_map fun f _ _ => hφ.not_hides f
  have herr : (b.run q n).machine.stderr = _ := sink_run q b n .err
  rwa [herr] at hrun

end Machine.Like

/-! ## Lists of instructions -/

/-- Carries out a list of instructions for at most so many steps. If it is not accepted, nothing is
read or written. -/
def Machine.launch [Reader ρ] (m : Machine ρ σ) (is : List Instruction) (n : Nat) : Progress ρ σ :=
  match Program.ofInstructions is with
  | .error f => .failed f m
  | .ok p => m.run p n

theorem execute_eq_launch [Reader ρ] {text : String} {is : List Instruction}
    (h : Document.loadText text = .ok is) (n : Nat) (m : Machine ρ σ) :
    execute text n m = m.launch is n := by
  have htext : Program.ofText text = Program.ofInstructions is := by
    simp only [Program.ofText, h, Except.bind]
  cases hp : Program.ofInstructions is with
  | error f => simp only [execute, htext, hp, Machine.launch]
  | ok p => simp only [execute, htext, hp, Machine.launch]

theorem Machine.launch_of_error [Reader ρ] {is : List Instruction} {f : Fault}
    (h : Program.ofInstructions is = .error f) (m : Machine ρ σ) (n : Nat) :
    m.launch is n = .failed f m := by
  simp only [launch, h]

theorem Machine.launch_of_ok [Reader ρ] {is : List Instruction} {p : Program}
    (h : Program.ofInstructions is = .ok p) (m : Machine ρ σ) (n : Nat) :
    m.launch is n = m.run p n := by
  simp only [launch, h]

end Ippcode
