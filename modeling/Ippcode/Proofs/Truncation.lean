import Ippcode.Proofs.Steps
import Ippcode.Proofs.Termination

/-! # Outputs with a limit

A run whose outputs have limits goes through the states of the run whose outputs have none, as long
as what is written fits. At the first write that does not fit it fails, with as much of the output
as the limit allows. Without a limit the output is the rendering of all values that were written,
one behind the other.
-/
namespace Ippcode

/-! ## Sinks -/

theorem extract_of_size_le {bytes : ByteArray} {n : Nat} (h : bytes.size ≤ n) :
    bytes.extract 0 n = bytes := by
  apply ByteArray.ext
  rw [ByteArray.data_extract]
  exact Array.extract_eq_self_of_le h

namespace Sink

variable {s : Sink} {limit : Option Nat}

/-- The same contents, to which only so much may be added. -/
def limited (limit : Option Nat) (s : Sink) : Sink := ⟨s.contents, limit⟩

/-- All that the sink holds fits the limit. -/
def Within (limit : Option Nat) (s : Sink) : Prop := ∀ n ∈ limit, s.contents.size ≤ n

theorem write_unlimited (h : s.limit = none) (text : String) :
    s.write text = (⟨s.contents ++ text.toUTF8, none⟩, .ok ()) := by
  obtain ⟨contents, limit⟩ := s
  cases h
  rfl

/-- What is written to a sink without a limit is added to it. -/
theorem after_unlimited (h : s.limit = none) (vs : List Value) :
    Writer.after s vs = ⟨s.contents ++ (String.join (vs.map Value.text)).toUTF8, none⟩ := by
  induction vs generalizing s with
  | nil =>
    obtain ⟨contents, limit⟩ := s
    cases h
    simp [Writer.after]
  | cons v vs ih =>
    have hfirst : (Writer.write s v).1 = ⟨s.contents ++ v.text.toUTF8, none⟩ :=
      congrArg Prod.fst (write_unlimited h v.text)
    have hrest := ih (s := (Writer.write s v).1) (by rw [hfirst])
    change Writer.after (Writer.write s v).1 vs = _
    rw [hrest, hfirst, List.map_cons, String.join_cons]
    simp [ByteArray.append_assoc]

theorem write_limited_of_within (h : s.limit = none) {text : String}
    (hw : (s.write text).1.Within limit) :
    (s.limited limit).write text = ((s.write text).1.limited limit, .ok ()) := by
  rw [write_unlimited h] at hw ⊢
  cases limit with
  | none => rfl
  | some n =>
    have hsize := hw n rfl
    rw [ByteArray.size_append] at hsize
    have hroom : text.utf8ByteSize ≤ n - s.contents.size := by
      change text.toUTF8.size ≤ _
      omega
    have hall : text.toUTF8.extract 0 (n - s.contents.size) = text.toUTF8 :=
      extract_of_size_le hroom
    simp only [write, put, hasRoom, limited, hroom, hall, decide_true, if_true]

/-- A write that does not fit fills the sink up to its limit. -/
theorem write_limited_of_not_within (h : s.limit = none) (hs : s.Within limit) {text : String}
    (hw : ¬ (s.write text).1.Within limit) :
    ∃ n, limit = some n ∧ n ≤ (s.write text).1.contents.size ∧
      (s.limited limit).write text =
        (⟨(s.write text).1.contents.extract 0 n, some n⟩, .error (.outputFailed "sink full")) := by
  rw [write_unlimited h] at hw ⊢
  cases limit with
  | none => exact absurd (fun n hn => by cases hn) hw
  | some n =>
    have hfits := hs n rfl
    have hover : n < s.contents.size + text.toUTF8.size := by
      by_contra hle
      refine hw fun k hk => ?_
      cases hk
      rw [ByteArray.size_append]
      omega
    have hroom : ¬ text.utf8ByteSize ≤ n - s.contents.size := by
      change ¬ text.toUTF8.size ≤ _
      omega
    have hkept : s.contents.extract 0 n = s.contents := extract_of_size_le hfits
    refine ⟨n, rfl, by rw [ByteArray.size_append]; omega, ?_⟩
    simp only [write, put, hasRoom, limited, hroom, decide_false, ByteArray.extract_append, hkept,
      Nat.zero_sub]
    rfl

end Sink

/-! ## Machines -/

/-- The opcodes that write to a channel. -/
def Channel.writers : Channel → List Opcode
  | .out => [.write]
  | .err => [.dPrint, .brk]

def Outcome.map {ρ σ : Type} (image : Machine ρ σ → Machine ρ σ) : Outcome ρ σ → Outcome ρ σ
  | .next m => .next (image m)
  | .jump k m => .jump k (image m)
  | .exit n m => .exit n (image m)
  | .fault f m => .fault f (image m)

theorem Progress.over_map {ρ σ : Type} {r : Progress ρ σ} {fault : Fault → Fault}
    {image : Machine ρ σ → Machine ρ σ} (h : r.Over) : (r.map fault image).Over := by
  cases r <;> exact h

namespace Machine

variable {ρ : Type} {limits : Channel → Option Nat} {m : Machine ρ Sink}

/-- The same state, with limits for what is still to be written. -/
def limited (limits : Channel → Option Nat) (m : Machine ρ Sink) : Machine ρ Sink :=
  { m with stdout := m.stdout.limited (limits .out), stderr := m.stderr.limited (limits .err) }

/-- All that was written fits the limits. -/
def Within (limits : Channel → Option Nat) (m : Machine ρ Sink) : Prop :=
  ∀ c, (m.sink c).Within (limits c)

def Unlimited (m : Machine ρ Sink) : Prop := ∀ c, (m.sink c).limit = none

/-- The state of a run that has failed to write to a channel, which is full. -/
def filled (limits : Channel → Option Nat) (m : Machine ρ Sink) (c : Channel) (contents : ByteArray)
    (limit : Nat) : Machine ρ Sink :=
  (m.limited limits).withSink ⟨contents.extract 0 limit, some limit⟩ c

theorem computed_limited (c : Command) : (m.limited limits).computed c = m.computed c := by
  cases c <;> rfl

theorem sink_withSink {s : Sink} {ch : Channel} : (m.withSink s ch).sink ch = s := by
  cases ch <;> rfl

theorem sink_withSink_of_ne {s : Sink} {ch ch' : Channel} (h : ch' ≠ ch) :
    (m.withSink s ch).sink ch' = m.sink ch' := by
  cases ch with
  | out =>
    cases ch' with
    | out => exact absurd rfl h
    | err => rfl
  | err =>
    cases ch' with
    | out => rfl
    | err => exact absurd rfl h

theorem within_withSink {s : Sink} {ch : Channel} (hw : m.Within limits) :
    (m.withSink s ch).Within limits ↔ s.Within (limits ch) := by
  constructor
  · intro h
    have hch := h ch
    rwa [sink_withSink] at hch
  · intro hs c
    by_cases hc : c = ch
    · subst hc
      rwa [sink_withSink]
    · rw [sink_withSink_of_ne hc]
      exact hw c

/-- A call of a channel that has no limit, and the same call where it has one. -/
inductive Bounded (limits : Channel → Option Nat) (m : Machine ρ Sink) (ch : Channel) (v : Value)
    (s : Sink) : Prop
  | fits (hw : (m.withSink s ch).Within limits)
    (h : Writer.write ((m.limited limits).sink ch) v = (s.limited (limits ch), .ok ())) :
    Bounded limits m ch v s
  | full {n : Nat} (hw : ¬ (m.withSink s ch).Within limits) (hlimit : limits ch = some n)
    (hsize : n ≤ s.contents.size)
    (h : Writer.write ((m.limited limits).sink ch) v =
      (⟨s.contents.extract 0 n, some n⟩, .error (.outputFailed "sink full"))) :
    Bounded limits m ch v s

theorem bounded_write (hm : m.Unlimited) (hw : m.Within limits) (ch : Channel) {v : Value}
    {s : Sink} {r : Except Fault Unit} (h : Writer.write (m.sink ch) v = (s, r)) :
    r = .ok () ∧ Bounded limits m ch v s := by
  have hs : ((m.sink ch).write v.text).1 = s := congrArg Prod.fst h
  have hr : ((m.sink ch).write v.text).2 = r := congrArg Prod.snd h
  have hsink : (m.limited limits).sink ch = (m.sink ch).limited (limits ch) := by
    cases ch <;> rfl
  rw [Sink.write_unlimited (hm ch)] at hr
  refine ⟨hr.symm, ?_⟩
  subst hs
  by_cases hfits : ((m.sink ch).write v.text).1.Within (limits ch)
  · refine .fits ((within_withSink hw).2 hfits) ?_
    rw [hsink]
    exact Sink.write_limited_of_within (hm ch) hfits
  · obtain ⟨n, hlimit, hsize, hwrite⟩ := Sink.write_limited_of_not_within (hm ch) (hw ch) hfits
    refine .full (fun h => hfits ((within_withSink hw).1 h)) hlimit hsize ?_
    rw [hsink]
    exact hwrite

variable [Reader ρ] {p : Program}

/-- A line whose output fits does the same with limits; one whose output does not fit fails. -/
inductive Rule.Limited (p : Program) (order : Int64) (limits : Channel → Option Nat)
    (m : Machine ρ Sink) (c : Command) (o : Outcome ρ Sink) : Prop
  | same (hw : o.progress.machine.Within limits)
    (h : Rule p order (m.limited limits) c (o.map (limited limits))) : Limited p order limits m c o
  | full {ch : Channel} {n : Nat} (hw : ¬ o.progress.machine.Within limits)
    (hlimit : limits ch = some n) (hop : c.opcode ∈ ch.writers)
    (hsize : n ≤ (o.progress.machine.sink ch).contents.size)
    (hother : ∀ ch', ch' ≠ ch → o.progress.machine.sink ch' = m.sink ch')
    (h : Rule p order (m.limited limits) c (.fault (.outputFailed "sink full")
      (m.filled limits ch (o.progress.machine.sink ch).contents n))) : Limited p order limits m c o

theorem Rule.limited {order : Int64} {c : Command} {o : Outcome ρ Sink} (hm : m.Unlimited)
    (hw : m.Within limits) (h : Rule p order m c o) : Rule.Limited p order limits m c o := by
  cases h with
  | assign hc hs => exact .same hw (.assign ((computed_limited c).trans hc) hs)
  | notComputed hc => exact .same hw (.notComputed ((computed_limited c).trans hc))
  | notAssigned hc hs => exact .same hw (.notAssigned ((computed_limited c).trans hc) hs)
  | createFrame => exact .same hw .createFrame
  | pushFrame h => exact .same hw (.pushFrame h)
  | notPushed h => exact .same hw (.notPushed h)
  | popFrame h => exact .same hw (.popFrame h)
  | notPopped h => exact .same hw (.notPopped h)
  | defVar h => exact .same hw (.defVar h)
  | notDeclared h => exact .same hw (.notDeclared h)
  | call h => exact .same hw (.call h)
  | notCalled h => exact .same hw (.notCalled h)
  | ret h => exact .same hw (.ret h)
  | notCalledFrom h => exact .same hw (.notCalledFrom h)
  | pushS h => exact .same hw (.pushS h)
  | nothingToPush h => exact .same hw (.nothingToPush h)
  | popS h hs => exact .same hw (.popS h hs)
  | nothingToPop h => exact .same hw (.nothingToPop h)
  | popLost h hs => exact .same hw (.popLost h hs)
  | read hs => exact .same hw (.read hs)
  | readLost hs => exact .same hw (.readLost hs)
  | label => exact .same hw .label
  | jump h => exact .same hw (.jump h)
  | notJumped h => exact .same hw (.notJumped h)
  | jumpIf h => exact .same hw (.jumpIf h)
  | stay h => exact .same hw (.stay h)
  | notTested h => exact .same hw (.notTested h)
  | exit h => exact .same hw (.exit h)
  | noStatus h => exact .same hw (.noStatus h)
  | nothingToWrite h => exact .same hw (.nothingToWrite h)
  | nothingToPrint h => exact .same hw (.nothingToPrint h)
  | write h hp =>
    cases hp with
    | silent hv => exact .same hw (.write h (.silent hv))
    | call hv hwrite =>
      obtain ⟨_, hbounded⟩ := bounded_write hm hw .out hwrite
      cases hbounded with
      | fits hfits hsame => exact .same hfits (.write h (.call hv hsame))
      | full hnot hlimit hsize hfull =>
        refine .full hnot hlimit List.mem_cons_self hsize ?_ (.notWritten h (.call hv hfull))
        intro ch' hne
        exact sink_withSink_of_ne (m := m) hne
  | dPrint h hp =>
    cases hp with
    | silent hv => exact .same hw (.dPrint h (.silent hv))
    | call hv hwrite =>
      obtain ⟨_, hbounded⟩ := bounded_write hm hw .err hwrite
      cases hbounded with
      | fits hfits hsame => exact .same hfits (.dPrint h (.call hv hsame))
      | full hnot hlimit hsize hfull =>
        refine .full hnot hlimit List.mem_cons_self hsize ?_ (.notPrinted h (.call hv hfull))
        intro ch' hne
        exact sink_withSink_of_ne (m := m) hne
  | brk hwrite =>
    obtain ⟨_, hbounded⟩ := bounded_write hm hw .err hwrite
    cases hbounded with
    | fits hfits hsame => exact .same hfits (.brk hsame)
    | full hnot hlimit hsize hfull =>
      refine .full hnot hlimit (List.mem_cons_of_mem _ List.mem_cons_self) hsize ?_
        (.notDumped hfull)
      intro ch' hne
      exact sink_withSink_of_ne (m := m) hne
  | notWritten _ hp =>
    cases hp with
    | call _ hwrite => cases (bounded_write hm hw .out hwrite).1
  | notPrinted _ hp =>
    cases hp with
    | call _ hwrite => cases (bounded_write hm hw .err hwrite).1
  | notDumped hwrite => cases (bounded_write hm hw .err hwrite).1

/-! ## Steps -/

theorem step_limited (hm : m.Unlimited) (hw : m.Within limits)
    (hw' : (m.step p).machine.Within limits) :
    (m.limited limits).step p = (m.step p).map id (limited limits) := by
  cases hl : p.line? m.pc with
  | none =>
    rw [step_of_end hl, step_of_end (m := m.limited limits) hl]
    rfl
  | some line =>
    obtain ⟨o, hr, ho⟩ := rule_of_line hl
    rw [ho] at hw' ⊢
    cases hr.limited hm hw with
    | same _ hsame =>
      rw [step_of_rule (m := m.limited limits) hl hsame]
      cases o <;> rfl
    | full hnot => exact absurd hw' hnot

/-- A step that writes more than fits fails, and leaves the channel full and all else as it was. -/
theorem step_filled (hm : m.Unlimited) (hw : m.Within limits)
    (hw' : ¬ (m.step p).machine.Within limits) :
    ∃ ch op n, p.opcode? m.pc = some op ∧ op ∈ ch.writers ∧ limits ch = some n ∧
      n ≤ ((m.step p).machine.sink ch).contents.size ∧
      (∀ ch', ch' ≠ ch → (m.step p).machine.sink ch' = m.sink ch') ∧
      (m.limited limits).step p = .failed (.outputFailed "sink full")
        (m.filled limits ch ((m.step p).machine.sink ch).contents n) := by
  cases hl : p.line? m.pc with
  | none =>
    rw [step_of_end hl] at hw'
    exact absurd hw hw'
  | some line =>
    obtain ⟨o, hr, ho⟩ := rule_of_line hl
    rw [ho] at hw' ⊢
    cases hr.limited hm hw with
    | same hfits => exact absurd hfits hw'
    | @full ch n _ hlimit hop hsize hother hfull =>
      refine ⟨ch, _, n, Program.opcode?_of_line hl, hop, hlimit, hsize, hother, ?_⟩
      rw [step_of_rule (m := m.limited limits) hl hfull]
      rfl

/-! ## Runs -/

/-- What a run without limits has written is added to what there was. -/
theorem sink_run_unlimited (hm : m.Unlimited) (n : Nat) (ch : Channel) :
    (m.run p n).machine.sink ch = ⟨(m.sink ch).contents ++
      (String.join ((Event.handed ch (m.trace p n)).map Value.text)).toUTF8, none⟩ := by
  rw [sink_run, Sink.after_unlimited (hm ch)]

theorem Unlimited.run (hm : m.Unlimited) (n : Nat) : (m.run p n).machine.Unlimited := by
  intro ch
  rw [sink_run_unlimited hm]

theorem Unlimited.of_running {m' : Machine ρ Sink} (hm : m.Unlimited) (h : m.step p = .running m') :
    m'.Unlimited := by
  have hrun := hm.run (p := p) 1
  rwa [run_of_running h] at hrun

/-- What has fitted at the end has fitted all along. -/
theorem within_of_run (hm : m.Unlimited) {n : Nat} (hw : (m.run p n).machine.Within limits) :
    m.Within limits := by
  intro ch k hk
  have hsize := hw ch k hk
  rw [sink_run_unlimited hm, ByteArray.size_append] at hsize
  omega

theorem run_limited (hm : m.Unlimited) {n : Nat} (hw : (m.run p n).machine.Within limits) :
    (m.limited limits).run p n = (m.run p n).map id (limited limits) := by
  induction n generalizing m with
  | zero => rfl
  | succ n ih =>
    have hw₀ := within_of_run hm hw
    obtain ⟨m₁, hs, hrun⟩ | ⟨ho, hrun⟩ := run_succ_cases p m n
    · have hm₁ := hm.of_running hs
      rw [hrun] at hw ⊢
      have hfits : (m.step p).machine.Within limits := by
        rw [hs]
        exact within_of_run hm₁ hw
      have hstep := step_limited hm hw₀ hfits
      rw [hs] at hstep
      rw [run_of_running hstep]
      exact ih hm₁ hw
    · rw [hrun] at hw ⊢
      have hstep := step_limited hm hw₀ hw
      have ho' : ((m.limited limits).step p).Over := by
        rw [hstep]
        exact Progress.over_map ho
      rw [run_of_over ho', hstep]

/-- If not all has fitted, there was a first step after which it had not. -/
theorem exists_first_not_within (hw : m.Within limits) {n : Nat}
    (hnot : ¬ (m.run p n).machine.Within limits) :
    ∃ k m', k < n ∧ m.run p k = .running m' ∧ m'.Within limits ∧
      ¬ (m'.step p).machine.Within limits := by
  induction n generalizing m with
  | zero => exact absurd hw hnot
  | succ n ih =>
    by_cases hstep : (m.step p).machine.Within limits
    · obtain ⟨m₁, hs, hrest⟩ | ⟨_, hrest⟩ := run_succ_cases p m n
      · rw [hrest] at hnot
        rw [hs] at hstep
        change m₁.Within limits at hstep
        obtain ⟨k, m', hk, hrun, hfits, hfull⟩ := ih hstep hnot
        exact ⟨k + 1, m', by omega, by rw [run_of_running hs, hrun], hfits, hfull⟩
      · rw [hrest] at hnot
        exact absurd hstep hnot
    · exact ⟨0, m, Nat.succ_pos n, rfl, hw, hstep⟩

theorem completed_of_run {m' : Machine ρ Sink} {n : Nat} (h : m.run p n = .running m') :
    m'.completed = m.completed + n := by
  induction n generalizing m with
  | zero =>
    cases h
    rfl
  | succ n ih =>
    cases hs : m.step p with
    | running m₁ =>
      rw [run_of_running hs] at h
      have hfirst := completed_of_running hs
      have hrest := ih h
      omega
    | ended | failed => simp [Machine.run, hs] at h

end Machine

/-! ## What is written -/

/-- What printing a value adds to an output: an integer in decimal, a truth value as a word, a
string without its escapes, and nothing for nil. -/
def Value.rendering : Value → String
  | .int n => Text.Decimal.render n
  | .bool true => "true"
  | .bool false => "false"
  | .str s => Text.Escape.decode s
  | .nil | .uninit => ""

theorem Value.rendering_eq (v : Value) : v.rendering = (v.printed?.map text).getD "" := by
  rcases v with n | b | s | _ | _
  · rfl
  · cases b <;> rfl
  · rfl
  · rfl
  · rfl

theorem Value.join_rendering (vs : List Value) :
    String.join (vs.map rendering) = String.join ((vs.filterMap printed?).map text) := by
  induction vs with
  | nil => rfl
  | cons v vs ih =>
    rw [List.map_cons, String.join_cons, ih, rendering_eq]
    cases hv : v.printed? <;> simp [hv]

namespace Machine

variable {ρ : Type} [Reader ρ] {p : Program} {m : Machine ρ Sink}

/-- The value that the next step writes to the output of the program. -/
def wrote? (p : Program) (m : Machine ρ Sink) : Option Value :=
  match m.command? p with
  | some (.write src) => (m.copied src).toOption
  | _ => none

/-- The values that at most so many steps write, in their order. -/
def writes (p : Program) (m : Machine ρ Sink) : Nat → List Value
  | 0 => []
  | n + 1 =>
    (m.wrote? p).toList ++
      match m.step p with
      | .running m' => m'.writes p n
      | _ => []

theorem handed_out_step (m : Machine ρ Sink) :
    Event.handed .out (m.stepEvents p) = (m.wrote? p).toList.filterMap Value.printed? := by
  unfold stepEvents wrote? command?
  cases hl : p.line? m.pc with
  | none => rfl
  | some line =>
    obtain ⟨order, c⟩ := line
    simp only [Option.map_some]
    cases c with
    | write src =>
      change Event.handed .out (m.printEvents .out src) =
        (m.copied src).toOption.toList.filterMap Value.printed?
      unfold printEvents
      cases m.copied src with
      | error f => rfl
      | ok v => cases hv : v.printed? <;> simp [Event.handed, Event.handed?, Except.toOption, hv]
    | dPrint src => exact handed_printEvents (by decide) src
    | pushFrame | popFrame =>
      unfold events
      cases m.exec p _ <;> rfl
    | _ => rfl

theorem handed_out_trace (m : Machine ρ Sink) (n : Nat) :
    Event.handed .out (m.trace p n) = (m.writes p n).filterMap Value.printed? := by
  induction n generalizing m with
  | zero => rfl
  | succ n ih =>
    have hstep := handed_out_step (p := p) m
    unfold trace writes
    rw [Event.handed, List.filterMap_append, List.filterMap_append, ← hstep]
    cases m.step p with
    | running m' => exact congrArg _ (ih m')
    | ended | failed => rfl

/-- A run with limits is cut off after `k` steps: the next one, of an opcode that writes to the
channel, is the first whose output does not fit. -/
structure CutOff (p : Program) (limits : Channel → Option Nat) (free bound : Machine ρ Sink)
    (k : Nat) (m : Machine ρ Sink) (ch : Channel) (limit : Nat) (last : Machine ρ Sink) : Prop where
  reached : free.run p k = .running m
  fitted : m.Within limits
  full : ¬ (m.step p).machine.Within limits
  writer : ∃ op ∈ ch.writers, p.opcode? m.pc = some op
  bounded : limits ch = some limit
  /-- Nothing happens any more. -/
  failed : ∀ d, bound.run p (k + 1 + d) = .failed (.outputFailed "sink full") last
  exitCode : (Fault.outputFailed "sink full").exitCode = 12
  /-- Only the output of the step remains of it. -/
  state : last = m.filled limits ch ((m.step p).machine.sink ch).contents limit
  completed : last.completed = k
  contents : (last.sink ch).contents = ((m.step p).machine.sink ch).contents.extract 0 limit
  size : (last.sink ch).contents.size = limit
  other : ∀ ch', ch' ≠ ch → (last.sink ch').contents = ((m.step p).machine.sink ch').contents

theorem cutOff_of_not_within {free m : Machine ρ Sink} {limits : Channel → Option Nat} {k : Nat}
    (hfree : free.Unlimited) (hcompleted : free.completed = 0) (hrun : free.run p k = .running m)
    (hw : m.Within limits) (hfull : ¬ (m.step p).machine.Within limits) :
    ∃ ch limit last, CutOff p limits free (free.limited limits) k m ch limit last := by
  have hm : m.Unlimited := by
    have hunlimited := hfree.run (p := p) k
    rwa [hrun] at hunlimited
  have hbound : (free.limited limits).run p k = .running (m.limited limits) := by
    have hfits : (free.run p k).machine.Within limits := by
      rw [hrun]
      exact hw
    have hsame := run_limited hfree hfits
    rwa [hrun] at hsame
  obtain ⟨ch, op, limit, hop, hwriter, hlimit, hsize, hother, hstep⟩ := step_filled hm hw hfull
  refine ⟨ch, limit, _, hrun, hw, hfull, ⟨op, hwriter, hop⟩, hlimit, ?_, rfl, rfl, ?_, ?_, ?_, ?_⟩
  · intro d
    have hover : ((m.limited limits).step p).Over := by
      rw [hstep]
      trivial
    rw [Nat.add_assoc, run_add_of_running hbound, Nat.add_comm 1 d, run_of_over hover, hstep]
  · have hcount := completed_of_run hrun
    rw [hcompleted, Nat.zero_add] at hcount
    cases ch <;> exact hcount
  · rw [filled, sink_withSink]
  · rw [filled, sink_withSink, ByteArray.size_extract]
    omega
  · intro ch' hne
    rw [hother ch' hne, filled, sink_withSink_of_ne hne]
    cases ch' <;> rfl

/-- A run with limits is the run without limits, cut off where the output is. Without limits the
output is the rendering of the values that were written. As long as all that is written fits, the
two runs go through the same states. Once it does not, the run with limits has failed at the first
step whose output does not fit: the channel holds the first bytes of what it would hold without a
limit, as many as the limit says, the other channel is the same, and only the steps before are
counted. -/
theorem limited_run_truncates (p : Program) (input : ρ) (limits : Channel → Option Nat) :
    let free : Machine ρ Sink := start input (.empty none) (.empty none)
    let bound : Machine ρ Sink := start input (.empty (limits .out)) (.empty (limits .err))
    (∀ n, (free.run p n).machine.stdout.contents =
      (String.join ((free.writes p n).map Value.rendering)).toUTF8) ∧
      (∀ n, (free.run p n).machine.Within limits →
        bound.run p n = (free.run p n).map id (limited limits)) ∧
      ∀ n, ¬ (free.run p n).machine.Within limits →
        ∃ k m ch limit last, k < n ∧ CutOff p limits free bound k m ch limit last := by
  intro free bound
  have hfree : free.Unlimited := by
    rintro (_ | _) <;> rfl
  have hwithin : free.Within limits := by
    rintro (_ | _) n _ <;> exact Nat.zero_le n
  refine ⟨?_, ?_, ?_⟩
  · intro n
    have hsink : (free.run p n).machine.stdout = _ := sink_run_unlimited hfree n .out
    rw [hsink, handed_out_trace, Value.join_rendering]
    exact ByteArray.empty_append
  · intro n hw
    exact run_limited hfree hw
  · intro n hnot
    obtain ⟨k, m, hk, hrun, hw, hfull⟩ := exists_first_not_within hwithin hnot
    obtain ⟨ch, limit, last, hcut⟩ := cutOff_of_not_within hfree rfl hrun hw hfull
    exact ⟨k, m, ch, limit, last, hk, hcut⟩

/-- A limit in the middle of a character, which the second of three lines writes. -/
theorem limited_run_truncates_character :
    ∃ (p : Program) (k : Nat) (m last : Machine),
      Program.ofInstructions [⟨1, .write, [.symbol (.const (.str "a"))]⟩,
        ⟨2, .write, [.symbol (.const (.str "\\233"))]⟩, ⟨3, .brk, []⟩] = .ok p ∧
      CutOff p (fun | .out => some 2 | .err => none) (start ⟨[]⟩ (.empty none) (.empty none))
        (start ⟨[]⟩ (.empty (some 2)) (.empty none)) k m .out 2 last ∧
      last.completed = k ∧ last.stdout.contents.size = 2 := by
  let p : Program :=
    ⟨#[⟨1, .write (.const (.str "a"))⟩, ⟨2, .write (.const (.str "\\233"))⟩, ⟨3, .brk⟩], []⟩
  have hp : Program.ofInstructions _ = .ok p :=
    Program.ofInstructions_of_perm p.lines.toList (.refl _) (by decide) (by decide) rfl
  let limits : Channel → Option Nat := fun | .out => some 2 | .err => none
  let free : Machine := start ⟨[]⟩ (.empty none) (.empty none)
  have hnot : ¬ (free.run p 2).machine.Within limits := by
    intro hw
    have hsize : (free.run p 2).machine.stdout.contents.size = 3 := by decide +kernel
    have hle : (free.run p 2).machine.stdout.contents.size ≤ 2 := hw .out 2 rfl
    omega
  obtain ⟨_, _, hcut⟩ := limited_run_truncates p free.input limits
  obtain ⟨k, m, ch, limit, last, _, hcut⟩ := hcut 2 hnot
  have hbounded := hcut.bounded
  cases ch with
  | err => cases hbounded
  | out =>
    cases hbounded
    exact ⟨p, k, m, last, hp, hcut, hcut.completed, hcut.size⟩

end Machine

end Ippcode
