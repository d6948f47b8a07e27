import Ippcode.Proofs.Access
import Ippcode.Proofs.Devices
import Ippcode.Proofs.Rejection
import Ippcode.Proofs.Steps
import Ippcode.Proofs.Truncation

/-! # Input that is not read

An input is its lines, and each request uses up one of them, whatever the type that is requested and
whatever the line holds. So a run sees of its input no more than the lines that its requests have
used up: inputs that begin with the same lines make no difference before the first request behind
these lines.
-/
namespace Ippcode

namespace Input

/-- The value that a line denotes in a type. -/
def lineValue? (type : DataType) (line : List UInt8) : Option Value :=
  (text? line).bind (convert type)

/-- What is left of an input behind its first lines. -/
def behind (i : Input) (n : Nat) : Input := ⟨(i.lines.drop n).flatten⟩

theorem flatten_linesFrom (begun bytes : List UInt8) :
    (linesFrom begun bytes).flatten = begun.reverse ++ bytes := by
  induction bytes generalizing begun with
  | nil => cases begun <;> simp [linesFrom]
  | cons b bytes ih =>
    by_cases hb : b = newline
    · simp [linesFrom, hb, ih]
    · simp [linesFrom, hb, ih]

/-- The lines are all of the input. -/
theorem flatten_lines (i : Input) : i.lines.flatten = i.bytes := by
  simp [lines, flatten_linesFrom]

@[simp] theorem behind_zero (i : Input) : i.behind 0 = i := by
  simp [behind, flatten_lines]

/-- There is no line to cut off, or there is a first one. -/
theorem cut?_cases (i : Input) :
    cut? i.bytes = none ∧ i.lines = [] ∨
      ∃ line rest, cut? i.bytes = some (line, rest) ∧ i.lines = line :: lines ⟨rest⟩ := by
  have hlines : i.lines = _ := lines_eq i.bytes
  cases hc : cut? i.bytes with
  | none => exact .inl ⟨rfl, by rw [hlines, hc]⟩
  | some c => exact .inr ⟨c.1, c.2, rfl, by rw [hlines, hc]⟩

theorem lines_behind (i : Input) (n : Nat) : (i.behind n).lines = i.lines.drop n := by
  induction n generalizing i with
  | zero => simp
  | succ n ih =>
    obtain ⟨-, hnone⟩ | ⟨line, rest, -, hsome⟩ := cut?_cases i
    · rw [behind, hnone, List.drop_nil]
      rfl
    · have hrest : i.behind (n + 1) = behind ⟨rest⟩ n := by simp [behind, hsome]
      rw [hrest, ih, hsome, List.drop_succ_cons]

theorem behind_behind (i : Input) (m n : Nat) : (i.behind m).behind n = i.behind (m + n) := by
  rw [behind, lines_behind, List.drop_drop, ← behind]

/-- A request is answered by the first line, whatever it holds, and uses it up. -/
theorem read_eq (type : DataType) (i : Input) :
    read type i = (i.lines.head?.bind (lineValue? type), i.behind 1) := by
  unfold read
  obtain ⟨hc, hnone⟩ | ⟨line, rest, hc, hsome⟩ := cut?_cases i
  · have hbytes : i.bytes = [] := by rw [← flatten_lines, hnone, List.flatten_nil]
    have hrest : i.behind 1 = i := by rw [behind, hnone, List.drop_nil, List.flatten_nil, ← hbytes]
    rw [hc, hnone, hrest]
    rfl
  · have hrest : i.behind 1 = ⟨rest⟩ := by simp [behind, hsome, flatten_lines]
    rw [hc, hsome, hrest]
    rfl

theorem after_eq_behind (i : Input) (types : List DataType) :
    Reader.after i types = i.behind types.length := by
  induction types generalizing i with
  | nil => exact (behind_zero i).symm
  | cons type types ih =>
    have hfirst : (read type i).2 = i.behind 1 := by rw [read_eq]
    change Reader.after (read type i).2 types = _
    rw [ih, hfirst, behind_behind, List.length_cons, Nat.add_comm]

end Input

namespace Machine

variable {ρ σ : Type}

/-- The same machine with another input. -/
def withInput (input : ρ) (m : Machine ρ σ) : Machine ρ σ := { m with input }

variable [Reader ρ] [Writer σ]

/-- How many lines of input the next step requests. -/
def stepReads (p : Program) (m : Machine ρ σ) : Nat :=
  ((m.stepEvents p).filterMap Event.requested?).length

/-- How many lines of input at most so many steps request: one for each `READ`. -/
def reads (p : Program) (m : Machine ρ σ) (n : Nat) : Nat :=
  ((m.trace p n).filterMap Event.requested?).length

variable {p : Program} {m m' : Machine ρ σ} {n : Nat}

theorem stepReads_le (m : Machine ρ σ) (n : Nat) : m.stepReads p ≤ m.reads p (n + 1) := by
  simp only [stepReads, reads, trace, List.filterMap_append, List.length_append]
  omega

theorem reads_of_running (h : m.step p = .running m') (n : Nat) :
    m.reads p (n + 1) = m.stepReads p + m'.reads p n := by
  simp only [reads, stepReads, trace, h, List.filterMap_append, List.length_append]

theorem stepReads_of_read {order : Int64} {dst : VarRef} {type : DataType}
    (hl : p.line? m.pc = some ⟨order, .read dst type⟩) : m.stepReads p = 1 := by
  simp only [stepReads, stepEvents, hl]
  rfl

/-- Machines that differ in their inputs only, which begin with the same lines, as many as so many
steps request. -/
structure SameLines (p : Program) (n : Nat) (a b : Machine Input σ) : Prop where
  core : b.core = a.core
  sink : ∀ ch, b.sink ch = a.sink ch
  lines : b.input.lines.take (a.reads p n) = a.input.lines.take (a.reads p n)

variable {a b a' b' : Machine Input σ} {dst : VarRef} {type : DataType}

theorem input_step (m : Machine Input σ) :
    (m.step p).machine.input = m.input.behind (m.stepReads p) := by
  rw [input_of_step, Input.after_eq_behind, stepReads]

theorem input_run_eq_behind (m : Machine Input σ) (n : Nat) :
    (m.run p n).machine.input = m.input.behind (m.reads p n) := by
  rw [input_run, Input.after_eq_behind, reads]

theorem SameLines.answered (h : SameLines p (n + 1) a b) : Answered p a b where
  core := h.core
  read := by
    intro order dst type hl
    -- the line that answers the request is among those that agree, since this step is counted
    have hone := stepReads_of_read hl
    have hle := stepReads_le (p := p) a n
    have hpos : a.reads p (n + 1) ≠ 0 := by omega
    have hhead : b.input.lines.head? = a.input.lines.head? := by
      have hfirst := congrArg List.head? h.lines
      rwa [List.head?_take, List.head?_take, if_neg hpos, if_neg hpos] at hfirst
    change (Input.read type b.input).1 = (Input.read type a.input).1
    rw [Input.read_eq, Input.read_eq, hhead]
  write := by
    intro ch v
    rw [h.sink ch]

theorem SameLines.next (h : SameLines p (n + 1) a b) (ha : a.step p = .running a')
    (hb : b.step p = .running b') : SameLines p n a' b' := by
  obtain ⟨hcore, hevents⟩ := h.answered.core_step
  rw [ha, hb] at hcore
  refine ⟨Progress.running.inj hcore, ?_, ?_⟩
  · intro ch
    have hsink : a'.sink ch = _ := ha ▸ sink_of_step a ch
    have hsink' : b'.sink ch = _ := hb ▸ sink_of_step b ch
    rw [hsink, hsink', hevents, h.sink ch]
  · have hinput : a'.input = _ := ha ▸ input_step a
    have hinput' : b'.input = _ := hb ▸ input_step b
    have hreads : b.stepReads p = a.stepReads p := by rw [stepReads, stepReads, hevents]
    rw [hinput, hinput', hreads, Input.lines_behind, Input.lines_behind, List.take_drop,
      List.take_drop, ← reads_of_running ha, h.lines]

/-- Up to the requests that the same lines answer, the runs differ in what is left to read. -/
theorem SameLines.run (h : SameLines p n a b) :
    b.reads p n = a.reads p n ∧
      b.run p n = (a.run p n).map id (withInput (b.input.behind (a.reads p n))) := by
  obtain ⟨hcore, htrace⟩ :=
    run_of_answered (R := SameLines p) SameLines.core SameLines.answered SameLines.next h
  have hreads : b.reads p n = a.reads p n := by rw [reads, reads, htrace]
  have hsink (ch : Channel) : (b.run p n).machine.sink ch = (a.run p n).machine.sink ch := by
    rw [sink_run, sink_run, htrace, h.sink ch]
  have hinput := input_run_eq_behind (p := p) b n
  have hout : (b.run p n).machine.stdout = _ := hsink .out
  have herr : (b.run p n).machine.stderr = _ := hsink .err
  have hrun := eq_map_of_core hcore
  rw [hreads] at hinput
  rw [hinput, hout, herr] at hrun
  refine ⟨hreads, hrun.trans ?_⟩
  cases a.run p n <;> rfl

/-- A `READ` is given what the first line that is left denotes, and nil if that is nothing. -/
theorem step_of_read (hc : a.command? p = some (.read dst type)) {memory : Memory}
    (hs : a.memory.store dst ((a.input.lines.head?.bind (Input.lineValue? type)).getD .nil) =
      .ok memory) :
    a.step p = .running { a with
      memory, input := a.input.behind 1, pc := a.pc + 1, completed := a.completed + 1 } := by
  have hread : Reader.read type a.input = _ := Input.read_eq type a.input
  have hnext :
      a.nextRead type = (a.input.lines.head?.bind (Input.lineValue? type)).getD .nil := by
    rw [nextRead, hread]
  have hrest : a.restInput type = a.input.behind 1 := by rw [restInput, hread]
  rw [← hnext] at hs
  rw [step_of_command? hc fun order => .read hs, hrest]
  rfl

/-- Whether a `READ` fails, and how, depends on its destination only. -/
theorem exists_failed_iff_of_read {f : Fault} (hc : m.command? p = some (.read dst type)) :
    (∃ m', m.step p = .failed f m') ↔ m.memory.Lacks dst f := by
  rw [← Memory.store_eq_error_iff (x := m.nextRead type)]
  constructor
  · rintro ⟨m', h⟩
    cases hs : m.memory.store dst (m.nextRead type) with
    | ok memory =>
      rw [step_of_command? hc fun order => .read hs] at h
      cases h
    | error g =>
      rw [step_of_command? hc fun order => .readLost hs] at h
      cases h
      rfl
  · intro hs
    exact ⟨_, step_of_command? hc fun order => .readLost hs⟩

/-- A run notices of its input no more than the lines that it has read. Inputs that begin with the
same `k` lines lead to the same states and outputs as long as no more than `k` lines have been
requested, and so to the same end if no more are requested at all. The `READ` that comes after `j`
others is given what the line with index `j` denotes, whatever was requested before and whatever it
was given, and whether it fails depends on its destination only. -/
theorem unread_lines_unobserved (p : Program) {x y : Input} {k : Nat}
    (hxy : x.lines.take k = y.lines.take k) (stdout stderr : σ) :
    let a : Machine Input σ := start x stdout stderr
    let b : Machine Input σ := start y stdout stderr
    (∀ n, a.reads p n ≤ k → b.reads p n = a.reads p n ∧
        b.run p n = (a.run p n).map id (withInput (y.behind (a.reads p n)))) ∧
      ((∀ n, a.reads p n ≤ k) → ∀ r, Returns p a r →
        ∃ rest, Returns p b (r.map id (withInput rest))) ∧
      ∀ n m dst type, a.run p n = .running m → m.command? p = some (.read dst type) →
        let v := (x.lines[a.reads p n]?.bind (Input.lineValue? type)).getD .nil
        (∀ memory, m.memory.store dst v = .ok memory →
          m.step p = .running { m with
            memory, input := x.behind (a.reads p n + 1), pc := m.pc + 1,
            completed := m.completed + 1 }) ∧
          ∀ f, (∃ m', m.step p = .failed f m') ↔ m.memory.Lacks dst f := by
  intro a b
  have hsame : ∀ n, a.reads p n ≤ k → SameLines p n a b := by
    intro n hn
    refine ⟨rfl, fun _ => rfl, ?_⟩
    have htake := congrArg (List.take (a.reads p n)) hxy
    rw [List.take_take, List.take_take, Nat.min_eq_left hn] at htake
    exact htake.symm
  refine ⟨fun n hn => (hsame n hn).run, ?_, ?_⟩
  · rintro hall r ⟨hover, n, rfl⟩
    obtain ⟨-, hrun⟩ := (hsame n (hall n)).run
    exact ⟨_, Progress.over_map hover, n, hrun⟩
  · intro n m dst type hrun hc v
    have hinput : m.input = x.behind (a.reads p n) := by
      have hleft := input_run_eq_behind (p := p) a n
      rwa [hrun] at hleft
    refine ⟨?_, fun f => exists_failed_iff_of_read hc⟩
    intro memory hs
    have hhead : m.input.lines.head? = x.lines[a.reads p n]? := by
      rw [hinput, Input.lines_behind, List.head?_drop]
    change m.memory.store dst (Option.getD _ .nil) = _ at hs
    rw [← hhead] at hs
    rw [step_of_read hc hs, hinput, Input.behind_behind]

/-- Inputs that differ behind their second line. The first does not denote an integer, but is used up
by asking for one. -/
theorem unread_lines_unobserved_third :
    let x : Input := ⟨[97, 10, 55, 10, 255]⟩
    let y : Input := ⟨[97, 10, 55, 10, 10, 56]⟩
    x.lines.take 2 = y.lines.take 2 ∧ x.lines[2]? ≠ y.lines[2]? ∧
      ∃ (p : Program) (rest : Input) (m : Machine),
        Program.ofInstructions [⟨1, .defVar, [.symbol (.var ⟨.gf, "x"⟩)]⟩,
          ⟨2, .read, [.symbol (.var ⟨.gf, "x"⟩), .type .int]⟩,
          ⟨3, .read, [.symbol (.var ⟨.gf, "x"⟩), .type .int]⟩] = .ok p ∧
        Returns p (start x (.empty none) (.empty none)) (.ended 0 m) ∧
        m.memory.load ⟨.gf, "x"⟩ = .ok (.int 7) ∧
        Returns p (start y (.empty none) (.empty none)) (.ended 0 (m.withInput rest)) := by
  intro x y
  let p : Program := ⟨#[⟨1, .defVar ⟨.gf, "x"⟩⟩, ⟨2, .read ⟨.gf, "x"⟩ .int⟩,
    ⟨3, .read ⟨.gf, "x"⟩ .int⟩], []⟩
  have hp : Program.ofInstructions _ = .ok p :=
    Program.ofInstructions_of_perm p.lines.toList (.refl _) (by decide) (by decide) rfl
  have hxy : x.lines.take 2 = y.lines.take 2 := by decide
  let a : Machine := start x (.empty none) (.empty none)
  have hreads : ∀ n, a.reads p n ≤ 2 := by
    rintro (_ | _ | _ | _ | n)
    · exact Nat.zero_le 2
    · exact Nat.zero_le 2
    · exact Nat.le_succ 1
    · exact Nat.le_refl 2
    · exact Nat.le_refl 2
  have hrun : Returns p a (.ended 0 (a.run p 4).machine) := ⟨trivial, 4, rfl⟩
  obtain ⟨_, hreturns, _⟩ := unread_lines_unobserved p hxy (Sink.empty none) (Sink.empty none)
  obtain ⟨rest, hrest⟩ := hreturns hreads _ hrun
  exact ⟨hxy, by decide, p, rest, _, hp, hrun, by decide +kernel, hrest⟩

end Machine

end Ippcode
