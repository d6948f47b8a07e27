import Ippcode.Machine.Trace
import Ippcode.Proofs.Rules

/-! # What a run writes

The events of a run tell which values were handed to each output, in their order. An output is after
the run what these values make of it, so that two runs whose events are alike differ in an output
only where the events differ.
-/
namespace Ippcode

namespace Writer

variable {σ : Type} [Writer σ] {w : σ}

/-- A writer after values have been handed to it one by one. -/
def after (w : σ) (vs : List Value) : σ := vs.foldl (fun w v => (write w v).1) w

theorem after_append (vs us : List Value) : after w (vs ++ us) = after (after w vs) us :=
  List.foldl_append

/-- No write fails, whatever has been written before it. -/
def Unfailing (w : σ) : Prop := ∀ vs v, (write (after w vs) v).2 = .ok ()

theorem Unfailing.after (h : Unfailing w) (vs : List Value) : Unfailing (after w vs) := by
  intro us v
  rw [← after_append]
  exact h (vs ++ us) v

theorem Unfailing.write_eq (h : Unfailing w) (v : Value) :
    write w v = (Writer.after w [v], .ok ()) :=
  Prod.ext rfl (h [] v)

end Writer

open Writer (Unfailing)

theorem Sink.unfailing_of_unlimited {s : Sink} (h : s.limit = none) : Unfailing s := by
  intro vs v
  have hlimit : (Writer.after s vs).limit = none := by
    induction vs generalizing s with
    | nil => exact h
    | cons v vs ih =>
      refine ih ?_
      change (s.put v.text.toUTF8).limit = none
      simp only [Sink.put, h]
  change (if (Writer.after s vs).hasRoom _ then _ else _) = _
  rw [if_pos]
  simp only [Sink.hasRoom, hlimit]

/-- The value that an event hands to a channel. -/
def Event.handed? (c : Channel) : Event → Option Value
  | .printed c' v => if c' = c then some v else none
  | _ => none

/-- The values that are handed to a channel. -/
def Event.handed (c : Channel) (events : List Event) : List Value :=
  events.filterMap (handed? c)

namespace Machine

variable {ρ σ : Type} [Reader ρ] [Writer σ] {p : Program} {m : Machine ρ σ}

/-- The events of at most so many steps. -/
def trace (p : Program) (m : Machine ρ σ) : Nat → List Event
  | 0 => []
  | n + 1 =>
    m.stepEvents p ++
      match m.step p with
      | .running m' => m'.trace p n
      | _ => []

/-- The log of a run is its trace, so what holds of traces holds of the events that are logged. -/
theorem snd_runTraced (p : Program) (n : Nat) (m : Machine ρ σ) (log : Array Event) :
    (runTraced p n m log).2.toList = log.toList ++ m.trace p n := by
  induction n generalizing m log with
  | zero => simp [runTraced, trace]
  | succ n ih =>
    simp only [runTraced, trace]
    cases m.step p with
    | running m' =>
      simp only [ih]
      simp
    | ended | failed => simp

/-! ## One step -/

/-- Only three opcodes hand a value to an output. -/
theorem handed_events_of_silent {order : Int64} {c : Command}
    (h : c.opcode ∉ [.write, .dPrint, .brk]) (ch : Channel) :
    Event.handed ch (m.events p ⟨order, c⟩) = [] := by
  unfold events
  cases c with
  | write | dPrint | brk => exact absurd (by simp [Command.opcode]) h
  | _ => cases m.exec p _ <;> rfl

omit [Reader ρ] in
theorem printEvents_of_prints {c : Channel} {src : Symbol} {v : Value} {s : σ}
    {r : Except Fault Unit} (h : m.copied src = .ok v) (hp : Prints (m.sink c) v s r) :
    s = Writer.after (m.sink c) (Event.handed c (m.printEvents c src)) := by
  cases hp with
  | silent hv => simp [printEvents, h, hv, Event.handed, Writer.after]
  | call hv hw => simp [printEvents, h, hv, Event.handed, Event.handed?, Writer.after, hw]

omit [Reader ρ] [Writer σ] in
/-- Printing makes no events but those of values that are handed over. -/
theorem filterMap_printEvents {α : Type} {g : Event → Option α}
    (h : ∀ c v, g (.printed c v) = none) (c : Channel) (src : Symbol) :
    (m.printEvents c src).filterMap g = [] := by
  unfold printEvents
  cases m.copied src with
  | error f => rfl
  | ok v => cases hv : v.printed? <;> simp [h]

omit [Reader ρ] [Writer σ] in
/-- Printing on one channel hands nothing to the other. -/
theorem handed_printEvents {c c' : Channel} (h : c' ≠ c) (src : Symbol) :
    Event.handed c (m.printEvents c' src) = [] := by
  unfold printEvents
  cases m.copied src with
  | error f => rfl
  | ok v => cases hv : v.printed? <;> simp [Event.handed, Event.handed?, hv, h]

theorem sink_of_rule {order : Int64} {c : Command} {o : Outcome ρ σ} (h : Rule p order m c o)
    (ch : Channel) :
    o.progress.machine.sink ch =
      Writer.after (m.sink ch) (Event.handed ch (m.events p ⟨order, c⟩)) := by
  cases h with
  | write h hp | notWritten h hp =>
    cases ch with
    | out => exact printEvents_of_prints (c := .out) h hp
    | err =>
      change m.stderr = Writer.after m.stderr (Event.handed .err (m.printEvents .out _))
      rw [handed_printEvents (by decide)]
      rfl
  | dPrint h hp | notPrinted h hp =>
    cases ch with
    | out =>
      change m.stdout = Writer.after m.stdout (Event.handed .out (m.printEvents .err _))
      rw [handed_printEvents (by decide)]
      rfl
    | err => exact printEvents_of_prints (c := .err) h hp
  | nothingToWrite h | nothingToPrint h =>
    have hnone : ∀ c', m.printEvents c' _ = [] := fun c' => by rw [printEvents, h]
    change _ = Writer.after _ (Event.handed ch (m.printEvents _ _))
    rw [hnone]
    cases ch <;> rfl
  | brk h | notDumped h =>
    cases ch with
    | out => rfl
    | err => exact (congrArg Prod.fst h).symm
  | assign hc | notComputed hc | notAssigned hc =>
    rw [handed_events_of_silent (not_mem_of_computed hc (by decide))]
    cases ch <;> rfl
  | @jumpIf equal | @stay equal | @notTested equal =>
    rw [handed_events_of_silent (by cases equal <;> simp [Command.opcode])]
    cases ch <;> rfl
  | _ =>
    rw [handed_events_of_silent (by simp [Command.opcode])]
    cases ch <;> rfl

theorem sink_of_step (m : Machine ρ σ) (ch : Channel) :
    (m.step p).machine.sink ch = Writer.after (m.sink ch) (Event.handed ch (m.stepEvents p)) := by
  unfold stepEvents
  cases hl : p.line? m.pc with
  | none =>
    rw [step_of_end hl]
    rfl
  | some line =>
    obtain ⟨o, hr, ho⟩ := rule_of_line hl
    rw [ho]
    exact sink_of_rule hr ch

/-! ## A run -/

/-- An output is after a run what the values handed to it make of it. -/
theorem sink_run (p : Program) (m : Machine ρ σ) (n : Nat) (ch : Channel) :
    (m.run p n).machine.sink ch = Writer.after (m.sink ch) (Event.handed ch (m.trace p n)) := by
  induction n generalizing m with
  | zero => rfl
  | succ n ih =>
    have hstep := sink_of_step (p := p) m ch
    unfold run trace
    cases hs : m.step p with
    | running m' =>
      rw [hs] at hstep
      change m'.sink ch = _ at hstep
      simp only [ih]
      rw [hstep, Event.handed, Event.handed, Event.handed, List.filterMap_append,
        Writer.after_append]
    | ended | failed =>
      rw [hs] at hstep
      simpa using hstep

end Machine

end Ippcode
