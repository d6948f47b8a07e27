import Ippcode.CommandLine
import Ippcode.Proofs.ControlFlow
import Ippcode.Proofs.Devices
import Ippcode.Proofs.Rejection
import Ippcode.Proofs.Steps
import Ippcode.Proofs.Traces
import Ippcode.Proofs.Truncation

/-! # Invocations

A command line comes to the status and the output of executing its document, unless a failure is met
before: the options, the source, the document and the input file are looked at in this order. A
failure keeps its status through all contexts, so that the status tells how a run was left.
-/
namespace Ippcode

/-! ## Statuses of failures -/

namespace Report

def failureStatuses : List Nat := [10, 11, 12, 31, 32, 52, 53, 54, 55, 56, 57, 58]

theorem exitCode_mem (f : Fault) : f.exitCode ∈ failureStatuses := by
  unfold Fault.exitCode
  cases f.kind <;> decide

/-- A failure that was met in some contexts. -/
def Traceable (r : Report) : Prop :=
  ∃ (f : Fault) (contexts : List String), r = contexts.foldl within (ofFault f)

theorem exitCode_contexts (contexts : List String) (r : Report) :
    (contexts.foldl within r).exitCode = r.exitCode := by
  induction contexts generalizing r with
  | nil => rfl
  | cons context contexts ih => rw [List.foldl_cons, ih, exitCode_within]

theorem Traceable.exitCode_mem {r : Report} (h : r.Traceable) : r.exitCode ∈ failureStatuses := by
  obtain ⟨f, contexts, rfl⟩ := h
  rw [exitCode_contexts, exitCode_ofFault]
  exact Report.exitCode_mem f

end Report

namespace Machine

variable {ρ σ : Type} [Reader ρ] [Writer σ] {p : Program} {m m' : Machine ρ σ} {k n : Nat}

/-- A run is over after the states in which it is not. -/
theorem exists_add_of_running (hk : m.run p k = .running m') (hn : (m.run p n).Over) :
    ∃ d, n = k + d := by
  obtain hle | hle := Nat.le_total k n
  · exact Nat.exists_eq_add_of_le hle
  · obtain ⟨d, rfl⟩ := Nat.exists_eq_add_of_le hle
    rw [← run_add_of_over hn d, hk] at hn
    exact hn.elim

theorem run_eq_of_over (hn : (m.run p n).Over) (hk : (m.run p k).Over) : m.run p n = m.run p k := by
  obtain hle | hle := Nat.le_total n k
  · obtain ⟨d, rfl⟩ := Nat.exists_eq_add_of_le hle
    exact (run_add_of_over hn d).symm
  · obtain ⟨d, rfl⟩ := Nat.exists_eq_add_of_le hle
    exact run_add_of_over hk d

/-- A run that ends does so behind its last line, or by an `EXIT` that it has come to. -/
theorem cases_of_ended {status : Nat} (h : m.run p n = .ended status m') :
    status = 0 ∨ ∃ k last code, m.run p k = .running last ∧
      last.command? p = some (.exit (.const (.int code))) ∧ code.toInt = status ∧ status ≤ 9 := by
  induction n generalizing m with
  | zero => cases h
  | succ n ih =>
    obtain ⟨m₁, hs, hrun⟩ | ⟨_, hrun⟩ := run_succ_cases p m n
    · rw [hrun] at h
      obtain h | ⟨k, last, code, hk, hexit⟩ := ih h
      · exact .inl h
      · exact .inr ⟨k + 1, last, code, (run_of_running hs k).trans hk, hexit⟩
    · rw [hrun] at h
      obtain ⟨_, h, _⟩ | ⟨line, m₁, hl, hr, _⟩ := rule_of_ended h
      · exact .inl h
      · obtain ⟨s, hc, hstatus, _⟩ := hr.eq_exit
        obtain ⟨code, rfl, hcode, rfl⟩ := status_eq_ok_iff.1 hstatus
        have hcommand : m.command? p = some (.exit (.const (.int code))) := by
          rw [command?_of_line hl, hc]
        exact .inr ⟨0, m, code, rfl, hcommand, by omega, by omega⟩

end Machine

namespace Session

variable {files : String → File} {stdin : ByteArray} {path : Option String} {text : String}
  {f : Fault} {r : Except Report Nat}

/-! ## Sources and inputs -/

/-- Where the text of a document is found. -/
inductive Provides (files : String → File) (stdin : ByteArray) : Option String → String → Prop
  | standard {text : String} (h : stdin = text.toUTF8) : Provides files stdin none text
  | file {path text : String} (h : files path = .contents text.toUTF8) :
    Provides files stdin (some path) text

/-- Where the input is found. What can be opened but not read is empty. -/
inductive Opens (files : String → File) (stdin : ByteArray) : Option String → Input → Prop
  | standard : Opens files stdin none ⟨stdin.toList⟩
  | file {path : String} {bytes : ByteArray} (h : files path = .contents bytes) :
    Opens files stdin (some path) ⟨bytes.toList⟩
  | unreadable {path reason : String} (h : files path = .unreadable reason) :
    Opens files stdin (some path) ⟨[]⟩

theorem decode_eq_ok_iff {what : String} {bytes : ByteArray} :
    decode what bytes = .ok text ↔ bytes = text.toUTF8 := by
  unfold decode String.fromUTF8?
  constructor
  · intro h
    split at h
    · next hs =>
      cases h
      obtain ⟨hvalid, hs⟩ := Option.dite_none_right_eq_some.1 hs
      cases hs
      rfl
    · cases h
  · rintro rfl
    have hvalid : text.toUTF8.IsValidUTF8 := text.isValidUTF8
    rw [dif_pos hvalid]
    rfl

theorem exitCode_of_decode {what : String} {bytes : ByteArray} (h : decode what bytes = .error f) :
    f.exitCode = 11 := by
  unfold decode at h
  split at h <;> cases h
  rfl

theorem sourceText_eq_ok_iff :
    sourceText files stdin path = .ok text ↔ Provides files stdin path text := by
  cases path with
  | none =>
    refine decode_eq_ok_iff.trans ⟨.standard, ?_⟩
    rintro ⟨h⟩
    exact h
  | some path =>
    cases hf : files path with
    | contents bytes =>
      simp only [sourceText, hf, decode_eq_ok_iff]
      constructor
      · rintro rfl
        exact .file hf
      · rintro (_ | h)
        exact File.contents.inj (hf.symm.trans h)
    | unreadable reason | absent reason =>
      simp only [sourceText, hf, reduceCtorEq, false_iff]
      rintro (_ | h)
      cases hf.symm.trans h

theorem exitCode_of_sourceText (h : sourceText files stdin path = .error f) : f.exitCode = 11 := by
  unfold sourceText at h
  split at h
  · exact exitCode_of_decode h
  · split at h
    · exact exitCode_of_decode h
    · cases h
      rfl
    · cases h
      rfl

theorem inputOf_eq_ok_iff {input : Input} :
    inputOf files stdin path = .ok input ↔ Opens files stdin path input := by
  cases path with
  | none =>
    constructor
    · rintro ⟨⟩
      exact .standard
    · rintro ⟨⟩
      rfl
  | some path =>
    cases hf : files path with
    | contents bytes =>
      simp only [inputOf, hf, Except.ok.injEq]
      constructor
      · rintro rfl
        exact .file hf
      · rintro (_ | h | h)
        · rw [File.contents.inj (hf.symm.trans h)]
        · cases hf.symm.trans h
    | unreadable reason =>
      simp only [inputOf, hf, Except.ok.injEq]
      constructor
      · rintro rfl
        exact .unreadable hf
      · rintro (_ | h | h)
        · cases hf.symm.trans h
        · rfl
    | absent reason =>
      simp only [inputOf, hf, reduceCtorEq, false_iff]
      rintro (_ | h | h) <;> cases hf.symm.trans h

theorem exitCode_of_inputOf (h : inputOf files stdin path = .error f) : f.exitCode = 11 := by
  unfold inputOf at h
  split at h
  · cases h
  · split at h <;> cases h
    rfl

/-! ## The order of failures -/

/-- What the command line is to come to: a status, and what is on the standard output. -/
inductive Prescribed (files : String → File) (stdin : ByteArray) (limits : Channel → Option Nat)
    (o : Options) : Nat → ByteArray → Prop
  /-- Neither a source nor an input is named. -/
  | unnamed (hs : o.source = none) (hi : o.input = none) : Prescribed files stdin limits o 10 .empty
  | noSource (ho : o.source ≠ none ∨ o.input ≠ none)
    (hs : ∀ text, ¬ Provides files stdin o.source text) : Prescribed files stdin limits o 11 .empty
  | notLoaded {text : String} {f : Fault} (ho : o.source ≠ none ∨ o.input ≠ none)
    (hs : Provides files stdin o.source text) (hl : Document.loadText text = .error f) :
    Prescribed files stdin limits o f.exitCode .empty
  | noInput {text : String} {is : List Instruction} (ho : o.source ≠ none ∨ o.input ≠ none)
    (hs : Provides files stdin o.source text) (hl : Document.loadText text = .ok is)
    (hi : ∀ input, ¬ Opens files stdin o.input input) : Prescribed files stdin limits o 11 .empty
  | ended {text : String} {is : List Instruction} {input : Input} {n status : Nat} {m : Machine}
    (ho : o.source ≠ none ∨ o.input ≠ none) (hs : Provides files stdin o.source text)
    (hl : Document.loadText text = .ok is) (hi : Opens files stdin o.input input)
    (he : execute text n (.start input (.empty (limits .out)) (.empty (limits .err))) =
      .ended status m) : Prescribed files stdin limits o status m.stdout.contents
  | failed {text : String} {is : List Instruction} {input : Input} {n : Nat} {f : Fault} {m : Machine}
    (ho : o.source ≠ none ∨ o.input ≠ none) (hs : Provides files stdin o.source text)
    (hl : Document.loadText text = .ok is) (hi : Opens files stdin o.input input)
    (he : execute text n (.start input (.empty (limits .out)) (.empty (limits .err))) =
      .failed f m) : Prescribed files stdin limits o f.exitCode m.stdout.contents

/-- The same session with limits to its outputs. -/
def limited (limits : Channel → Option Nat) (s : Session) : Session :=
  { s with machine := s.machine.limited limits }

/-- A session comes to its end, with this result and this on the standard output. -/
def Concludes (s : Session) (r : Except Report Nat) (out : ByteArray) : Prop :=
  ∃ n, result? (s.run n) = some r ∧ (s.run n).machine.stdout.contents = out

/-- The same in stretches of so many steps, after each of which the output is passed on. -/
inductive Drives (k : Nat) : Session → Except Report Nat → ByteArray → Prop
  | last {s : Session} {r : Except Report Nat} (h : result? (s.run k) = some r) :
    Drives k s r (s.run k).machine.stdout.contents
  | more {s : Session} {m : Machine} {r : Except Report Nat} {out : ByteArray}
    (h : s.run k = .running m) (hd : Drives k (s.rest m) r out) :
    Drives k s r (m.stdout.contents ++ out)

variable {o : Options} {s : Session} {report : Report}

theorem check_eq_ok_iff {u : Unit} :
    o.check = .ok u ↔ o.source ≠ none ∨ o.input ≠ none := by
  unfold Options.check
  cases o.source <;> cases o.input <;> simp

theorem check_eq_error_iff :
    o.check = .error f ↔ (o.source = none ∧ o.input = none) ∧ f = .noFileNamed := by
  unfold Options.check
  cases o.source <;> cases o.input <;> simp [eq_comm]

theorem prepare_eq_ok_iff :
    prepare files stdin o = .ok s ↔
      (o.source ≠ none ∨ o.input ≠ none) ∧ ∃ text, Provides files stdin o.source text ∧
        ∃ is, Document.loadText text = .ok is ∧ ∃ input, Opens files stdin o.input input ∧
          ∃ p, Program.ofInstructions is = .ok p ∧
            ⟨p, .start input (.empty none) (.empty none)⟩ = s := by
  simp only [prepare, reportIn, Except.bind_eq_ok, Except.mapError_eq_ok, check_eq_ok_iff,
    sourceText_eq_ok_iff, inputOf_eq_ok_iff, pure, Except.pure, Except.ok.injEq, exists_and_left,
    exists_const]

theorem prepare_eq_error_iff :
    prepare files stdin o = .error report ↔
      (o.source = none ∧ o.input = none) ∧ .ofFault .noFileNamed = report ∨
      (o.source ≠ none ∨ o.input ≠ none) ∧
        ((∃ f, sourceText files stdin o.source = .error f ∧ .ofFault f = report) ∨
        ∃ text, Provides files stdin o.source text ∧
          ((∃ f, Document.loadText text = .error f ∧
            (Report.ofFault f).within "Parsing instruction document" = report) ∨
          ∃ is, Document.loadText text = .ok is ∧
            ((∃ f, inputOf files stdin o.input = .error f ∧ .ofFault f = report) ∨
            ∃ input, Opens files stdin o.input input ∧
              ∃ f, Program.ofInstructions is = .error f ∧
                (Report.ofFault f).within "Executing program" = report))) := by
  simp only [prepare, reportIn, Except.bind_eq_error, Except.mapError_eq_ok,
    Except.mapError_eq_error, check_eq_ok_iff, check_eq_error_iff,
    sourceText_eq_ok_iff, inputOf_eq_ok_iff, pure, Except.pure, reduceCtorEq, exists_and_left,
    exists_const, and_false, or_false, exists_false, exists_eq_left, and_assoc]

theorem result?_eq_some_iff {g : Progress} :
    result? g = some r ↔
      (∃ status m, g = .ended status m ∧ .ok status = r) ∨
        ∃ f m, g = .failed f m ∧ .error ((Report.ofFault f).within "Executing program") = r := by
  cases g <;> simp [result?, reportIn, Except.mapError]

/-! ## Stretches -/

/-- Machines that differ in what their outputs hold, which are not limited. -/
structure SameDevices (a b : Machine) : Prop where
  core : b.core = a.core
  input : b.input = a.input
  unlimited : a.Unlimited
  unlimited_right : b.Unlimited

theorem SameDevices.answered {p : Program} {a b : Machine} (h : SameDevices a b) :
    a.Answered p b where
  core := h.core
  read := by
    intro order dst type _
    rw [h.input]
  write := by
    intro ch v
    change ((b.sink ch).write v.text).2 = ((a.sink ch).write v.text).2
    rw [Sink.write_unlimited (h.unlimited ch), Sink.write_unlimited (h.unlimited_right ch)]

theorem SameDevices.next {p : Program} {a b a' b' : Machine} (h : SameDevices a b)
    (ha : a.step p = .running a') (hb : b.step p = .running b') : SameDevices a' b' := by
  obtain ⟨hcore, hevents⟩ := h.answered.core_step (p := p)
  rw [ha, hb] at hcore
  refine ⟨Progress.running.inj hcore, ?_, h.unlimited.of_running ha, h.unlimited_right.of_running hb⟩
  have hinput : a'.input = _ := ha ▸ Machine.input_of_step a
  have hinput' : b'.input = _ := hb ▸ Machine.input_of_step b
  rw [hinput, hinput', hevents, h.input]

theorem unlimited_drained {m : Machine} (h : m.Unlimited) : m.drained.Unlimited := by
  intro ch
  cases ch with
  | out => exact h .out
  | err => exact h .err

/-- What has been written before makes no difference but that it stands before the rest. -/
theorem run_drained {p : Program} {m : Machine} (h : m.Unlimited) (n : Nat) :
    (m.drained.run p n).core = (m.run p n).core ∧
      (m.run p n).machine.stdout.contents =
        m.stdout.contents ++ (m.drained.run p n).machine.stdout.contents := by
  have hdrained := unlimited_drained h
  have hsame : SameDevices m m.drained := ⟨rfl, rfl, h, hdrained⟩
  obtain ⟨hcore, htrace⟩ := Machine.run_of_answered (R := fun _ => SameDevices) SameDevices.core
    SameDevices.answered SameDevices.next (p := p) (n := n) hsame
  have hout : (m.run p n).machine.stdout = _ := Machine.sink_run_unlimited h n .out
  have hout' : (m.drained.run p n).machine.stdout = _ :=
    Machine.sink_run_unlimited hdrained n .out
  have hempty : (m.drained.sink .out).contents = .empty := rfl
  refine ⟨hcore, ?_⟩
  rw [hout, hout', htrace, hempty, ByteArray.empty_append]
  rfl

theorem result?_of_core {g g' : Progress} (h : g'.core = g.core) : result? g' = result? g := by
  cases g <;> cases g' <;> simp_all [Progress.core, result?]

theorem over_of_result? {g : Progress} (h : result? g = some r) : g.Over := by
  cases g with
  | running m => cases h
  | ended | failed => trivial

theorem unlimited_of_run {k : Nat} {m : Machine} (hs : s.machine.Unlimited)
    (h : s.run k = .running m) : m.Unlimited := by
  have hrun := hs.run (p := s.program) k
  rwa [show s.machine.run s.program k = _ from h] at hrun

theorem concludes_of_drives {k : Nat} {out : ByteArray} (hs : s.machine.Unlimited)
    (h : Drives k s r out) : s.Concludes r out := by
  induction h with
  | last h => exact ⟨k, h, rfl⟩
  | @more s m r out h hd ih =>
    have hm := unlimited_of_run hs h
    obtain ⟨n, hresult, rfl⟩ := ih (unlimited_drained hm)
    obtain ⟨hcore, hout⟩ := run_drained (p := s.program) hm n
    have hrun : s.run (k + n) = m.run s.program n := Machine.run_add_of_running h n
    refine ⟨k + n, ?_, ?_⟩
    · rw [hrun, ← result?_of_core hcore]
      exact hresult
    · rw [hrun]
      exact hout

theorem drives_of_concludes {k n : Nat} (hk : 0 < k) (hs : s.machine.Unlimited)
    (h : result? (s.run n) = some r) : Drives k s r (s.run n).machine.stdout.contents := by
  -- on the number of steps that the run still takes, of which a stretch takes at least one
  induction n using Nat.strongRecOn generalizing s with
  | ind n ih =>
    have hover : (s.run n).Over := over_of_result? h
    cases hrun : s.run k with
    | running m =>
      have hm := unlimited_of_run hs hrun
      obtain ⟨d, rfl⟩ := Machine.exists_add_of_running hrun hover
      have hrest : s.run (k + d) = m.run s.program d := Machine.run_add_of_running hrun d
      obtain ⟨hcore, hout⟩ := run_drained (p := s.program) hm d
      rw [hrest] at h ⊢
      rw [← result?_of_core hcore] at h
      rw [hout]
      exact .more hrun (ih d (by omega) (s := s.rest m) (unlimited_drained hm) h)
    | ended | failed =>
      have hover' : (s.run k).Over := by
        rw [hrun]
        trivial
      have hsame : s.run n = s.run k := Machine.run_eq_of_over hover hover'
      rw [hsame] at h ⊢
      exact .last h

end Session

namespace CommandLine

open Session

/-- What an invocation comes to with limits to its outputs. -/
inductive Invocation.Concludes (limits : Channel → Option Nat) :
    Invocation → Except Report Nat → ByteArray → Prop
  | failure (report : Report) : Concludes limits (.failure report) (.error report) .empty
  | session {s : Session} {r : Except Report Nat} {out : ByteArray}
    (h : (s.limited limits).Concludes r out) : Concludes limits (.session s) r out

variable {files : String → File} {stdin : ByteArray} {args : List String} {o : Options}
  {limits : Channel → Option Nat} {r : Except Report Nat} {out : ByteArray}

theorem concludes_iff (hparse : parse args = .ok (.run o)) :
    (invoke files stdin args).Concludes limits r out ↔
      (∃ report, prepare files stdin o = .error report ∧ r = .error report ∧ out = .empty) ∨
        ∃ s, prepare files stdin o = .ok s ∧ (s.limited limits).Concludes r out := by
  simp only [invoke, hparse]
  cases prepare files stdin o with
  | error report =>
    constructor
    · rintro ⟨⟩
      exact .inl ⟨report, rfl, rfl, rfl⟩
    · rintro (⟨_, ⟨⟩, rfl, rfl⟩ | ⟨_, ⟨⟩, _⟩)
      exact .failure report
  | ok s =>
    constructor
    · rintro (_ | h)
      exact .inr ⟨s, rfl, h⟩
    · rintro (⟨_, ⟨⟩, _⟩ | ⟨_, ⟨⟩, h⟩)
      exact .session h

theorem prepare_of_session {s : Session} (hparse : parse args = .ok (.run o))
    (h : invoke files stdin args = .session s) : prepare files stdin o = .ok s := by
  simp only [invoke, hparse] at h
  cases hp : prepare files stdin o with
  | error report =>
    rw [hp] at h
    cases h
  | ok s' =>
    rw [hp] at h
    cases h
    rfl

/-- A session that has been prepared runs as the document is executed. -/
theorem execute_eq_run {text : String} {is : List Instruction} {p : Program}
    (hl : Document.loadText text = .ok is) (hp : Program.ofInstructions is = .ok p) (input : Input)
    (limits : Channel → Option Nat) (n : Nat) :
    execute text n (.start input (.empty (limits .out)) (.empty (limits .err))) =
      ((⟨p, .start input (.empty none) (.empty none)⟩ : Session).limited limits).run n := by
  rw [execute_eq_launch hl, Machine.launch_of_ok hp]
  rfl

theorem execute_of_refused {text : String} {is : List Instruction} {f : Fault}
    (hl : Document.loadText text = .ok is) (hp : Program.ofInstructions is = .error f) (m : Machine)
    (n : Nat) : execute text n m = .failed f m := by
  rw [execute_eq_launch hl, Machine.launch_of_error hp]

theorem prescribed_of_concludes (hparse : parse args = .ok (.run o))
    (h : (invoke files stdin args).Concludes limits r out) :
    Prescribed files stdin limits o (status r) out := by
  obtain ⟨report, hfail, rfl, rfl⟩ | ⟨s, hready, n, hr, rfl⟩ := (concludes_iff hparse).1 h
  · obtain ⟨⟨hs, hi⟩, rfl⟩ | ⟨ho, ⟨f, hs, rfl⟩ | ⟨text, hs, hrest⟩⟩ := prepare_eq_error_iff.1 hfail
    · exact .unnamed hs hi
    · rw [status, Report.exitCode_ofFault, exitCode_of_sourceText hs]
      refine .noSource ho ?_
      intro text ht
      cases hs.symm.trans (sourceText_eq_ok_iff.2 ht)
    · obtain ⟨f, hl, rfl⟩ | ⟨is, hl, ⟨f, hi, rfl⟩ | ⟨input, hi, f, hp, rfl⟩⟩ := hrest
      · rw [status, Report.exitCode_within, Report.exitCode_ofFault]
        exact .notLoaded ho hs hl
      · rw [status, Report.exitCode_ofFault, exitCode_of_inputOf hi]
        refine .noInput ho hs hl ?_
        intro input ht
        cases hi.symm.trans (inputOf_eq_ok_iff.2 ht)
      · rw [status, Report.exitCode_within, Report.exitCode_ofFault]
        exact .failed ho hs hl hi (execute_of_refused hl hp _ 0)
  · obtain ⟨ho, text, hs, is, hl, input, hi, p, hp, rfl⟩ := prepare_eq_ok_iff.1 hready
    have hexecute := execute_eq_run hl hp input limits n
    obtain ⟨code, m, hrun, rfl⟩ | ⟨f, m, hrun, rfl⟩ := result?_eq_some_iff.1 hr
    · rw [hrun]
      exact .ended ho hs hl hi (hexecute.trans hrun)
    · rw [hrun, status, Report.exitCode_within, Report.exitCode_ofFault]
      exact .failed ho hs hl hi (hexecute.trans hrun)

theorem concludes_of_failure {report : Report} (hparse : parse args = .ok (.run o))
    (h : prepare files stdin o = .error report) :
    ∃ r, (invoke files stdin args).Concludes limits r .empty ∧ status r = report.exitCode :=
  ⟨.error report, (concludes_iff hparse).2 (.inl ⟨report, h, rfl, rfl⟩), rfl⟩

theorem concludes_of_run {s : Session} {n : Nat} {g : Progress} (hparse : parse args = .ok (.run o))
    (h : prepare files stdin o = .ok s) (hrun : (s.limited limits).run n = g)
    (hr : result? g = some r) :
    (invoke files stdin args).Concludes limits r g.machine.stdout.contents := by
  subst hrun
  exact (concludes_iff hparse).2 (.inr ⟨s, h, n, hr, rfl⟩)

theorem concludes_of_prescribed {code : Nat} (hparse : parse args = .ok (.run o))
    (h : Prescribed files stdin limits o code out) :
    ∃ r, (invoke files stdin args).Concludes limits r out ∧ status r = code := by
  cases h with
  | unnamed hs hi =>
    exact concludes_of_failure hparse (prepare_eq_error_iff.2 (.inl ⟨⟨hs, hi⟩, rfl⟩))
  | noSource ho hs =>
    cases ht : sourceText files stdin o.source with
    | ok text => cases hs text (sourceText_eq_ok_iff.1 ht)
    | error f =>
      have hfail := prepare_eq_error_iff.2 (.inr ⟨ho, .inl ⟨f, ht, rfl⟩⟩)
      rw [← exitCode_of_sourceText ht, ← Report.exitCode_ofFault]
      exact concludes_of_failure hparse hfail
  | @notLoaded text f ho hs hl =>
    have hfail := prepare_eq_error_iff.2 (.inr ⟨ho, .inr ⟨text, hs, .inl ⟨f, hl, rfl⟩⟩⟩)
    rw [← Report.exitCode_ofFault, ← Report.exitCode_within]
    exact concludes_of_failure hparse hfail
  | @noInput text is ho hs hl hi =>
    cases ht : inputOf files stdin o.input with
    | ok input => cases hi input (inputOf_eq_ok_iff.1 ht)
    | error f =>
      have hfail := prepare_eq_error_iff.2
        (.inr ⟨ho, .inr ⟨text, hs, .inr ⟨is, hl, .inl ⟨f, ht, rfl⟩⟩⟩⟩)
      rw [← exitCode_of_inputOf ht, ← Report.exitCode_ofFault]
      exact concludes_of_failure hparse hfail
  | @ended text is input n _ m ho hs hl hi he =>
    cases hp : Program.ofInstructions is with
    | error f =>
      rw [execute_of_refused hl hp] at he
      cases he
    | ok p =>
      have hready := prepare_eq_ok_iff.2 ⟨ho, text, hs, is, hl, input, hi, p, hp, rfl⟩
      rw [execute_eq_run hl hp] at he
      exact ⟨.ok code, concludes_of_run hparse hready he rfl, rfl⟩
  | @failed text is input n f m ho hs hl hi he =>
    cases hp : Program.ofInstructions is with
    | error g =>
      rw [execute_of_refused hl hp] at he
      cases he
      have hfail := prepare_eq_error_iff.2
        (.inr ⟨ho, .inr ⟨text, hs, .inr ⟨is, hl, .inr ⟨input, hi, f, hp, rfl⟩⟩⟩⟩)
      rw [← Report.exitCode_ofFault, ← Report.exitCode_within]
      exact concludes_of_failure hparse hfail
    | ok p =>
      have hready := prepare_eq_ok_iff.2 ⟨ho, text, hs, is, hl, input, hi, p, hp, rfl⟩
      rw [execute_eq_run hl hp] at he
      rw [← Report.exitCode_ofFault, ← Report.exitCode_within]
      exact ⟨.error _, concludes_of_run hparse hready he rfl, rfl⟩

theorem traceable_of_concludes {report : Report} (hparse : parse args = .ok (.run o))
    (h : (invoke files stdin args).Concludes limits (.error report) out) : report.Traceable := by
  obtain ⟨_, hfail, heq, _⟩ | ⟨s, _, n, hr, _⟩ := (concludes_iff hparse).1 h
  · cases heq
    obtain ⟨_, rfl⟩ | ⟨_, ⟨f, _, rfl⟩ | ⟨_, _, hrest⟩⟩ := prepare_eq_error_iff.1 hfail
    · exact ⟨.noFileNamed, [], rfl⟩
    · exact ⟨f, [], rfl⟩
    · obtain ⟨f, _, rfl⟩ | ⟨_, _, ⟨f, _, rfl⟩ | ⟨_, _, f, _, rfl⟩⟩ := hrest
      · exact ⟨f, ["Parsing instruction document"], rfl⟩
      · exact ⟨f, [], rfl⟩
      · exact ⟨f, ["Executing program"], rfl⟩
  · obtain ⟨_, _, _, heq⟩ | ⟨f, _, _, heq⟩ := result?_eq_some_iff.1 hr
    · cases heq
    · cases heq
      exact ⟨f, ["Executing program"], rfl⟩

/-- What the status of an invocation tells of the way in which it was left. -/
structure Invocation.Telling (limits : Channel → Option Nat) (i : Invocation)
    (r : Except Report Nat) : Prop where
  known : status r ≠ Report.unknownStatus
  ok_iff : status r ≤ 9 ↔ ∃ n, r = .ok n
  /-- A status that is not zero is what an `EXIT` that was carried out says. -/
  exit : status r ≤ 9 → status r ≠ 0 → ∃ s k m code, i = .session s ∧
    (s.limited limits).run k = .running m ∧
    m.command? s.program = some (.exit (.const (.int code))) ∧ code.toInt = status r
  failure : 9 < status r → status r ∈ Report.failureStatuses
  /-- The status is that of the fault that was met, whatever is put around it. -/
  contexts : ∀ report, r = .error report → ∃ (f : Fault) (inner : List String),
    report = inner.foldl Report.within (.ofFault f) ∧
      ∀ outer : List String, (outer.foldl Report.within report).exitCode = f.exitCode

theorem telling_of_ok {s : Session} {n : Nat} (hi : invoke files stdin args = .session s)
    (h : (s.limited limits).Concludes (.ok n) out) :
    (invoke files stdin args).Telling limits (.ok n) := by
  obtain ⟨k, hr, _⟩ := h
  obtain ⟨code, m, hrun, heq⟩ | ⟨_, _, _, heq⟩ := result?_eq_some_iff.1 hr
  · cases heq
    have hcases := Machine.cases_of_ended hrun
    have hle : n ≤ 9 := by
      obtain rfl | ⟨_, _, _, _, _, _, hle⟩ := hcases
      · exact Nat.zero_le 9
      · exact hle
    refine ⟨?_, ⟨fun _ => ⟨n, rfl⟩, fun _ => hle⟩, ?_, ?_, ?_⟩
    · intro hn
      have hn : n = 99 := hn
      omega
    · intro _ hne
      obtain hzero | ⟨j, last, code, hj, hexit, hcode, _⟩ := hcases
      · exact absurd hzero hne
      · exact ⟨s, j, last, code, hi, hj, hexit, hcode⟩
    · intro hlt
      exact absurd hle (Nat.not_le.2 hlt)
    · intro report hreport
      cases hreport
  · cases heq

theorem telling_of_error {report : Report} (h : report.Traceable) (i : Invocation) :
    i.Telling limits (.error report) := by
  have hmem : status (.error report) ∈ Report.failureStatuses := h.exitCode_mem
  have hlt : 9 < status (.error report) ∧ status (.error report) ≠ Report.unknownStatus := by
    revert hmem
    generalize status (.error report) = code
    revert code
    decide
  refine ⟨hlt.2, ⟨?_, ?_⟩, ?_, fun _ => hmem, ?_⟩
  · intro hle
    omega
  · rintro ⟨_, ⟨⟩⟩
  · intro hle
    omega
  · rintro _ ⟨⟩
    obtain ⟨f, inner, rfl⟩ := h
    refine ⟨f, inner, rfl, ?_⟩
    intro outer
    rw [Report.exitCode_contexts, Report.exitCode_contexts, Report.exitCode_ofFault]

theorem unlimited_of_prepare {s : Session} (h : prepare files stdin o = .ok s) :
    s.machine.Unlimited := by
  obtain ⟨_, _, _, _, _, _, _, _, _, rfl⟩ := prepare_eq_ok_iff.1 h
  rintro (_ | _) <;> rfl

theorem limited_of_unlimited {s : Session} (h : s.machine.Unlimited) :
    s.limited (fun _ => none) = s := by
  obtain ⟨p, memory, calls, operands, pc, completed, input, ⟨out, limit⟩, ⟨err, limit'⟩⟩ := s
  cases h .out
  cases h .err
  rfl

/-- A command line whose options can be read comes to what is prescribed: the failure that is met
first, or the status and the output of executing the document. Passing the output on from time to
time makes no difference. The status tells a run that ended from one that failed, is what an `EXIT`
said if it is neither zero nor a failure's, and is never that of an unknown error. -/
theorem invoke_agrees_with_execute (files : String → File) (stdin : ByteArray)
    (limits : Channel → Option Nat) (hparse : parse args = .ok (.run o)) :
    (∀ code out, (∃ r, (invoke files stdin args).Concludes limits r out ∧ status r = code) ↔
        Prescribed files stdin limits o code out) ∧
      (∀ s, invoke files stdin args = .session s → ∀ k r out, 0 < k →
        (Drives k s r out ↔ (invoke files stdin args).Concludes (fun _ => none) r out)) ∧
      ∀ r out, (invoke files stdin args).Concludes limits r out →
        (invoke files stdin args).Telling limits r := by
  refine ⟨?_, ?_, ?_⟩
  · intro code out
    constructor
    · rintro ⟨r, h, rfl⟩
      exact prescribed_of_concludes hparse h
    · exact concludes_of_prescribed hparse
  · intro s hs k r out hk
    have hready : prepare files stdin o = .ok s := prepare_of_session hparse hs
    have hunlimited := unlimited_of_prepare hready
    rw [hs]
    constructor
    · intro h
      refine .session ?_
      rw [limited_of_unlimited hunlimited]
      exact concludes_of_drives hunlimited h
    · rintro (_ | ⟨n, h, rfl⟩)
      rw [limited_of_unlimited hunlimited] at h ⊢
      exact drives_of_concludes hk hunlimited h
  · intro r out h
    cases r with
    | error report => exact telling_of_error (traceable_of_concludes hparse h) _
    | ok n =>
      cases hi : invoke files stdin args with
      | session s =>
        rw [hi] at h
        cases h with
        | session h => exact hi ▸ telling_of_ok hi h
      | information text | misuse m | failure report =>
        rw [hi] at h
        cases h

/-- A document whose lines stand in reverse, and whose input is a directory. -/
theorem invoke_agrees_with_execute_directory :
    parse ["--source", "a", "--input=b"] = .ok (.run ⟨some "a", some "b"⟩) ∧
      ∃ (files : String → File) (limits : Channel → Option Nat) (r : Except Report Nat),
        (invoke files .empty ["--source", "a", "--input=b"]).Concludes limits r "x".toUTF8 ∧
          status r = 5 := by
  let text := "[null, [[2, \"EXIT\", [[\"int\", \"5\"]]], [1, \"WRITE\", [[\"string\", \"x\"]]]]]"
  let files : String → File := fun path =>
    if path = "a" then .contents text.toUTF8 else .unreadable "Is a directory (os error 21)"
  let limits : Channel → Option Nat := fun _ => some 1
  let p : Program := ⟨#[⟨1, .write (.const (.str "x"))⟩, ⟨2, .exit (.const (.int 5))⟩], []⟩
  have hparse : parse ["--source", "a", "--input=b"] = .ok (.run ⟨some "a", some "b"⟩) := rfl
  have hload : Document.loadText text = .ok [⟨2, .exit, [.symbol (.const (.int 5))]⟩,
      ⟨1, .write, [.symbol (.const (.str "x"))]⟩] := by decide +kernel
  have hp : Program.ofInstructions _ = .ok p :=
    Program.ofInstructions_of_perm p.lines.toList.reverse (by decide) (by decide) (by decide) rfl
  have hrun := execute_eq_run hload hp ⟨[]⟩ limits 2
  have hsource : Provides files .empty (some "a") text := .file rfl
  have hinput : Opens files .empty (some "b") ⟨[]⟩ := .unreadable rfl
  obtain ⟨hagrees, _⟩ := invoke_agrees_with_execute files .empty limits hparse
  have hprescribed : Prescribed files .empty limits ⟨some "a", some "b"⟩ 5 "x".toUTF8 :=
    .ended (.inl (Option.some_ne_none _)) hsource hload hinput (hrun.trans rfl)
  exact ⟨hparse, files, limits, (hagrees 5 "x".toUTF8).2 hprescribed⟩

end CommandLine

end Ippcode
