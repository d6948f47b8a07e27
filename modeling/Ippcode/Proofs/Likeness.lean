import Ippcode.Proofs.ControlFlow
import Ippcode.Proofs.Outputs
import Ippcode.Proofs.Renaming

/-! # Machines alike

Two runs may differ in much that the program which runs cannot see: the names it uses, the orders
and the positions of its lines, how many instructions were completed before, what was written to
the diagnostics, and what lies at the bottom of the three stacks. A likeness says how they differ.
Whatever a line does in one of them it does in the other, unless it asks for an entry of a stack
that is empty in the one and deeper in the other. This is shown once, for all likenesses, line by
line; what follows for a whole run needs only that the programs correspond.
-/
namespace Ippcode

/-- A run asked for what lies below the bottom of a stack. -/
def Fault.AtBottom : Fault → Prop
  | .emptyStack _ | .noLocalFrame => True
  | _ => False

structure Likeness where
  names : Renaming
  order : Int64 → Int64
  position : Nat → Nat
  /-- What lies below the call stack, and then below the other two. -/
  calls : Stack Nat
  operands : Stack Value
  locals : List Frame
  /-- How many more instructions are completed. -/
  ahead : Int

namespace Likeness

/-- Nothing differs that the program could see. -/
def refl : Likeness := ⟨.refl, id, id, [], [], [], 0⟩

variable (φ : Likeness)

def line (l : Line) : Line := ⟨φ.order l.order, φ.names.command l.command⟩

def memory (mem : Memory) : Memory :=
  { φ.names.memory mem with locals := mem.locals.map φ.names.frame ++ φ.locals }

theorem memory_of_refl {φ : Likeness} (h : φ.names = .refl) (mem : Memory) :
    φ.memory mem = { mem with locals := mem.locals ++ φ.locals } := by
  have hframe : Renaming.refl.frame = id := funext Renaming.frame_refl
  simp [memory, Renaming.memory, h, hframe]

def Deeper : Prop := φ.calls ≠ [] ∨ φ.operands ≠ [] ∨ φ.locals ≠ []

/-- A bottom that is met in the one run need not be met in the other. -/
def Hides (f : Fault) : Prop := φ.Deeper ∧ f.AtBottom

end Likeness

variable {φ : Likeness}

/-! ## Results -/

/-- Results of the same attempt in two runs. -/
inductive Alike (φ : Likeness) {α β : Type} (R : α → β → Prop) :
    Except Fault α → Except Fault β → Prop
  | ok {a : α} {b : β} (h : R a b) : Alike φ R (.ok a) (.ok b)
  | error (f : Fault) : Alike φ R (.error f) (.error (φ.names.fault f))
  | hidden {f : Fault} {r : Except Fault β} (h : φ.Hides f) : Alike φ R (.error f) r

namespace Alike

variable {α β γ δ : Type} {R : α → β → Prop} {S : γ → δ → Prop} {r : Except Fault α}
  {r' : Except Fault β}

theorem bind {f : α → Except Fault γ} {g : β → Except Fault δ} (h : Alike φ R r r')
    (hfg : ∀ a b, R a b → Alike φ S (f a) (g b)) : Alike φ S (r >>= f) (r' >>= g) := by
  cases h with
  | ok h => exact hfg _ _ h
  | error f => exact .error f
  | hidden h => exact .hidden h

theorem map {f : α → γ} {g : β → δ} (h : Alike φ R r r') (hfg : ∀ a b, R a b → S (f a) (g b)) :
    Alike φ S (r.map f) (r'.map g) := by
  cases h with
  | ok h => exact .ok (hfg _ _ h)
  | error f => exact .error f
  | hidden h => exact .hidden h

theorem of_result (image : α → β) (r : Except Fault α) :
    Alike φ (fun a b => b = image a) r (φ.names.result image r) := by
  cases r with
  | ok a => exact .ok rfl
  | error f => exact .error f

/-- What depends on nothing in which the runs differ is the same in both. -/
theorem of_nameless (h : ∀ f, r = .error f → f.Nameless) :
    Alike φ (fun a b => b = a) r r := by
  cases r with
  | ok a => exact .ok rfl
  | error f =>
    have hf := Alike.error (φ := φ) (R := fun a b : α => b = a) f
    rwa [h f rfl φ.names] at hf

theorem noLocalFrame (h : φ.locals = [] → r' = .error .noLocalFrame) :
    Alike φ R (.error .noLocalFrame) r' := by
  by_cases hφ : φ.locals = []
  · rw [h hφ]
    exact .error _
  · exact .hidden ⟨.inr (.inr hφ), trivial⟩

/-- The top of a stack that is deeper in the other run is the same in both. -/
theorem pop (name : String) (s : Stack α) (image : α → β) (below : Stack β)
    (h : below ≠ [] → φ.Deeper) :
    Alike φ (fun x y => y = (image x.1, x.2.map image ++ below)) (s.pop name)
      (Stack.pop name (s.map image ++ below)) := by
  cases s with
  | cons x rest => exact .ok rfl
  | nil =>
    cases below with
    | nil => exact .error _
    | cons y below => exact .hidden ⟨h (by simp), trivial⟩

end Alike

/-! ## Memory -/

namespace Memory

variable (φ) (mem : Memory)

theorem alike_frame (tag : FrameTag) :
    Alike φ (fun f g => g = φ.names.frame f) (mem.frame tag) ((φ.memory mem).frame tag) := by
  obtain ⟨global, temporary, locals⟩ := mem
  cases tag with
  | gf => exact .ok rfl
  | tf =>
    cases temporary with
    | none => exact .error _
    | some f => exact .ok rfl
  | lf =>
    cases locals with
    | cons f rest => exact .ok rfl
    | nil => exact .noLocalFrame fun hφ => by simp [frame, Likeness.memory, hφ]

theorem alike_update (tag : FrameTag) {change change' : Frame → Except Fault Frame}
    (h : ∀ f, change' (φ.names.frame f) = φ.names.result φ.names.frame (change f)) :
    Alike φ (fun m m' => m' = φ.memory m) (mem.update tag change)
      ((φ.memory mem).update tag change') := by
  have hchange : ∀ f, Alike φ (fun g g' => g' = φ.names.frame g) (change f)
      (change' (φ.names.frame f)) := by
    intro f
    rw [h]
    exact .of_result _ _
  obtain ⟨global, temporary, locals⟩ := mem
  cases tag with
  | gf =>
    refine (hchange global).map ?_
    rintro g _ rfl
    rfl
  | tf =>
    cases temporary with
    | none => exact .error _
    | some f =>
      refine (hchange f).map ?_
      rintro g _ rfl
      rfl
  | lf =>
    cases locals with
    | cons f rest =>
      refine (hchange f).map ?_
      rintro g _ rfl
      rfl
    | nil => exact .noLocalFrame fun hφ => by simp [update, Likeness.memory, hφ]

theorem alike_load (v : VarRef) :
    Alike φ (fun x y => y = x) (mem.load v) ((φ.memory mem).load (φ.names.ref v)) := by
  refine (alike_frame φ mem v.frame).bind ?_
  rintro f _ rfl
  change Alike φ _ (f.get v.name) ((φ.names.frame f).get (φ.names.var v.name))
  rw [φ.names.get_frame]
  exact .of_result id _

theorem alike_store (v : VarRef) (x : Value) :
    Alike φ (fun m m' => m' = φ.memory m) (mem.store v x)
      ((φ.memory mem).store (φ.names.ref v) x) :=
  alike_update φ mem v.frame fun f => φ.names.set_frame f v.name x

theorem alike_declare (v : VarRef) :
    Alike φ (fun m m' => m' = φ.memory m) (mem.declare v)
      ((φ.memory mem).declare (φ.names.ref v)) :=
  alike_update φ mem v.frame fun f => φ.names.declare_frame f v.name

theorem alike_pushTemporary :
    Alike φ (fun m m' => m' = φ.memory m) mem.pushTemporary (φ.memory mem).pushTemporary := by
  obtain ⟨global, temporary, locals⟩ := mem
  cases temporary with
  | none => exact .error _
  | some f => exact .ok rfl

theorem alike_popLocal :
    Alike φ (fun m m' => m' = φ.memory m) mem.popLocal (φ.memory mem).popLocal := by
  obtain ⟨global, temporary, locals⟩ := mem
  cases locals with
  | cons f rest => exact .ok rfl
  | nil => exact .noLocalFrame fun hφ => by simp [popLocal, Likeness.memory, hφ]

end Memory

/-! ## Machines -/

open Writer (Unfailing)

variable {ρ σ : Type} [Writer σ]

/-- All that two machines have in common, whatever they wrote to the diagnostics. -/
structure Machine.Like (φ : Likeness) (a b : Machine ρ σ) : Prop where
  memory : b.memory = φ.memory a.memory
  calls : b.calls = a.calls.map φ.position ++ φ.calls
  operands : b.operands = a.operands ++ φ.operands
  pc : b.pc = φ.position a.pc
  completed : (b.completed : Int) = a.completed + φ.ahead
  input : b.input = a.input
  stdout : b.stdout = a.stdout
  unfailing : Unfailing a.stderr
  unfailing' : Unfailing b.stderr

inductive Outcome.Like (φ : Likeness) : Outcome ρ σ → Outcome ρ σ → Prop
  | next {a b : Machine ρ σ} (h : a.Like φ b) : Like φ (.next a) (.next b)
  | jump {a b : Machine ρ σ} (k : Nat) (h : a.Like φ b) :
    Like φ (.jump k a) (.jump (φ.position k) b)
  | exit {a b : Machine ρ σ} (status : Nat) (h : a.Like φ b) :
    Like φ (.exit status a) (.exit status b)
  | fault {a b : Machine ρ σ} (f : Fault) (h : a.Like φ b) :
    Like φ (.fault f a) (.fault (φ.names.fault f) b)
  | hidden {a : Machine ρ σ} {f : Fault} {o : Outcome ρ σ} (h : φ.Hides f) : Like φ (.fault f a) o

inductive Progress.Like (φ : Likeness) : Progress ρ σ → Progress ρ σ → Prop
  | running {a b : Machine ρ σ} (h : a.Like φ b) : Like φ (.running a) (.running b)
  | ended {a b : Machine ρ σ} (status : Nat) (h : a.Like φ b) :
    Like φ (.ended status a) (.ended status b)
  | failed {a b : Machine ρ σ} (f : Fault) (h : a.Like φ b) :
    Like φ (.failed f a) (.failed (φ.names.fault f) b)
  | hidden {a : Machine ρ σ} {f : Fault} {r : Progress ρ σ} (h : φ.Hides f) :
    Like φ (.failed f a) r

/-- A line of the one program stands in the other at the position that corresponds to its own, as
does the label that it names. -/
structure Shown (φ : Likeness) (p q : Program) (k : Nat) (line : Line) : Prop where
  found : q.line? (φ.position k) = some (φ.line line)
  next : φ.position (k + 1) = φ.position k + 1
  target : ∀ name, line.command.target? = some name →
    q.label (φ.names.label name) = φ.names.result φ.position (p.label name)

namespace Machine.Like

variable {a b : Machine ρ σ} (h : a.Like φ b)
include h

/-! ## What a command computes -/

theorem value (s : Symbol) :
    Alike φ (fun x y => y = x) (a.value s) (b.value (φ.names.symbol s)) := by
  cases s with
  | const x => exact .ok rfl
  | var v =>
    change Alike φ _ (a.memory.load v) (b.memory.load (φ.names.ref v))
    rw [h.memory]
    exact Memory.alike_load φ a.memory v

theorem copied (s : Symbol) :
    Alike φ (fun x y => y = x) (a.copied s) (b.copied (φ.names.symbol s)) := by
  refine (h.value s).bind ?_
  rintro _ v rfl
  cases v with
  | uninit => exact .error (.unassigned s)
  | _ => exact .ok rfl

theorem source (op : Opcode) (s : Symbol) :
    Alike φ (fun x y => y = x) (a.source op s) (b.source op (φ.names.symbol s)) := by
  refine (h.value s).bind ?_
  rintro _ v rfl
  cases v with
  | uninit => exact .error (.unassignedSource op s)
  | _ => exact .ok rfl

theorem status (s : Symbol) :
    Alike φ (fun x y => y = x) (a.status s) (b.status (φ.names.symbol s)) := by
  refine (h.value s).bind ?_
  rintro _ v rfl
  cases s with
  | var => cases v <;> exact .error .exitNotLiteral
  | const =>
    cases v with
    | int code =>
      refine .of_nameless ?_
      intro f hf
      change (if _ then _ else _) = _ at hf
      split at hf <;> cases hf
      exact fun _ => rfl
    | _ => exact .error .exitNotLiteral

/-- A command that only computes a value computes it in both. -/
theorem computed {c : Command} {dst : VarRef} {r : Except Fault Value}
    (hc : a.computed c = some (dst, r)) :
    ∃ r', b.computed (φ.names.command c) = some (φ.names.ref dst, r') ∧
      Alike φ (fun x y => y = x) r r' := by
  cases c <;> cases hc
  case move src => exact ⟨_, rfl, h.copied src⟩
  case unary op src =>
    refine ⟨_, rfl, (h.source op.opcode src).bind ?_⟩
    rintro x _ rfl
    exact .of_nameless fun _ => UnaryOp.nameless_of_apply
  case binary op left right =>
    refine ⟨_, rfl, (h.source op.opcode left).bind ?_⟩
    rintro x _ rfl
    refine (h.source op.opcode right).bind ?_
    rintro y _ rfl
    exact .of_nameless fun _ => BinaryOp.nameless_of_apply
  case setChar index replacement =>
    refine ⟨_, rfl, (h.source .setChar (.var dst)).bind ?_⟩
    rintro s _ rfl
    refine (h.source .setChar index).bind ?_
    rintro i _ rfl
    refine (h.source .setChar replacement).bind ?_
    rintro x _ rfl
    exact .of_nameless fun _ => Operator.nameless_of_setChar
  case type src =>
    refine ⟨_, rfl, (h.value src).bind ?_⟩
    rintro x _ rfl
    exact .ok rfl

/-! ## What a command leaves -/

theorem withMemory (mem : Memory) :
    ({ a with memory := mem } : Machine ρ σ).Like φ { b with memory := φ.memory mem } :=
  { h with memory := rfl }

theorem attempt {r r' : Except Fault (Machine ρ σ)} (hr : Alike φ (Machine.Like φ) r r') :
    Outcome.Like φ (a.attempt r) (b.attempt r') := by
  cases hr with
  | ok hr => exact .next hr
  | error f => exact .fault f h
  | hidden hr => exact .hidden hr

theorem attemptMemory {r r' : Except Fault Memory}
    (hr : Alike φ (fun m m' => m' = φ.memory m) r r') :
    Outcome.Like φ (a.attempt (r.map fun memory => { a with memory }))
      (b.attempt (r'.map fun memory => { b with memory })) := by
  refine h.attempt (hr.map ?_)
  rintro mem _ rfl
  exact h.withMemory mem

theorem store (dst : VarRef) (v : Value) :
    Alike φ (Machine.Like φ) (a.store dst v) (b.store (φ.names.ref dst) v) := by
  unfold Machine.store
  rw [h.memory]
  refine (Memory.alike_store φ a.memory dst v).map ?_
  rintro mem _ rfl
  exact h.withMemory mem

theorem emit_err (v v' : Value) : Outcome.Like φ (a.emit .err v) (b.emit .err v') := by
  simp only [emit, sink, h.unfailing.write_eq, h.unfailing'.write_eq]
  exact .next { h with unfailing := h.unfailing.after [v], unfailing' := h.unfailing'.after [v'] }

theorem emit_out (v : Value) : Outcome.Like φ (a.emit .out v) (b.emit .out v) := by
  simp only [emit, sink, h.stdout]
  cases hw : (Writer.write a.stdout v).2 with
  | ok u => exact .next { h with stdout := rfl }
  | error f =>
    obtain ⟨reason, rfl⟩ := Writer.outputFailed_of_write hw
    exact .fault _ { h with stdout := rfl }

theorem put (c : Channel) (v : Value) : Outcome.Like φ (a.put c v) (b.put c v) := by
  unfold Machine.put
  cases v.printed? with
  | none => exact .next h
  | some x =>
    cases c with
    | out => exact h.emit_out x
    | err => exact h.emit_err x x

theorem print (c : Channel) (s : Symbol) :
    Outcome.Like φ (a.print c s) (b.print c (φ.names.symbol s)) := by
  have hs := h.copied s
  unfold Machine.print
  generalize a.copied s = r, b.copied (φ.names.symbol s) = r' at hs
  cases hs with
  | ok hv =>
    subst hv
    exact h.put c _
  | error f => exact .fault f h
  | hidden hf => exact .hidden hf

variable {p q : Program} {line : Line}

theorem jumpTest (hs : Shown φ p q a.pc line) {equal : Bool} {target : String} {left right : Symbol}
    (hc : line.command = .jumpIf equal target left right) (op : Opcode) :
    Alike φ (fun x y => y = (φ.position x.1, x.2)) (a.jumpTest p op target left right)
      (b.jumpTest q op (φ.names.label target) (φ.names.symbol left) (φ.names.symbol right)) := by
  unfold Machine.jumpTest
  rw [hs.target target (by rw [hc]; rfl)]
  refine (Alike.of_result φ.position (p.label target)).bind ?_
  rintro k _ rfl
  refine (h.value left).bind ?_
  rintro _ x rfl
  refine (h.value right).bind ?_
  rintro _ y rfl
  refine (Alike.of_nameless fun _ => Operator.nameless_of_jumpEquals).bind ?_
  rintro _ r rfl
  exact .ok rfl

variable [Reader ρ]

theorem exec_of_computed {dst : VarRef} {r : Except Fault Value}
    (hc : a.computed line.command = some (dst, r)) :
    Outcome.Like φ (a.exec p line) (b.exec q (φ.line line)) := by
  obtain ⟨r', hc', hr⟩ := h.computed hc
  have hc' : b.computed (φ.line line).command = some (φ.names.ref dst, r') := hc'
  rw [Machine.exec_of_computed hc, Machine.exec_of_computed hc']
  refine h.attempt (hr.bind ?_)
  rintro _ v rfl
  exact h.store dst v

/-- What a line does in the one state it does in the other. -/
theorem exec (hs : Shown φ p q a.pc line) :
    Outcome.Like φ (a.exec p line) (b.exec q (φ.line line)) := by
  obtain ⟨order, c⟩ := line
  cases c with
  | move | unary | binary | setChar | type => exact h.exec_of_computed rfl
  | createFrame =>
    refine .next { h with memory := ?_ }
    rw [h.memory]
    rfl
  | pushFrame =>
    simp only [Machine.exec, Likeness.line, Renaming.command, h.memory]
    exact h.attemptMemory (Memory.alike_pushTemporary φ a.memory)
  | popFrame =>
    simp only [Machine.exec, Likeness.line, Renaming.command, h.memory]
    exact h.attemptMemory (Memory.alike_popLocal φ a.memory)
  | defVar dst =>
    simp only [Machine.exec, Likeness.line, Renaming.command, h.memory]
    exact h.attemptMemory (Memory.alike_declare φ a.memory dst)
  | call target =>
    simp only [Machine.exec, Likeness.line, Renaming.command, hs.target target rfl]
    cases p.label target with
    | error f => exact .fault f h
    | ok k =>
      refine .jump k { h with calls := ?_ }
      simp [Stack.push, h.calls, h.pc, hs.next]
  | jump target =>
    simp only [Machine.exec, Likeness.line, Renaming.command, hs.target target rfl]
    cases p.label target with
    | error f => exact .fault f h
    | ok k => exact .jump k h
  | ret =>
    -- the one may be at its bottom where the other still has a position to return to
    have hpop := Alike.pop (φ := φ) "call stack" a.calls φ.position φ.calls .inl
    simp only [Machine.exec, Likeness.line, Renaming.command, h.calls]
    generalize a.calls.pop _ = r, Stack.pop _ (a.calls.map φ.position ++ φ.calls) = r' at hpop
    cases hpop with
    | ok hk =>
      subst hk
      exact .jump _ { h with calls := rfl }
    | error f => exact .fault f h
    | hidden hf => exact .hidden hf
  | pushS src =>
    refine h.attempt ((h.copied src).map ?_)
    rintro _ v rfl
    refine { h with operands := ?_ }
    simp [Stack.push, h.operands]
  | popS dst =>
    have hpop := Alike.pop (φ := φ) "operand stack" a.operands id φ.operands (.inr ∘ .inl)
    rw [List.map_id] at hpop
    simp only [Machine.exec, Likeness.line, Renaming.command, h.operands]
    generalize a.operands.pop _ = r, Stack.pop _ (a.operands ++ φ.operands) = r' at hpop
    cases hpop with
    | @ok x _ hx =>
      subst hx
      have hrest : ({ a with operands := x.2 } : Machine ρ σ).Like φ
          { b with operands := x.2 ++ φ.operands } := { h with operands := rfl }
      simp only [List.map_id, id]
      exact hrest.attempt (hrest.store dst x.1)
    | error f => exact .fault f h
    | hidden hf => exact .hidden hf
  | read dst type =>
    simp only [Machine.exec, Likeness.line, Renaming.command, h.input]
    have hrest : ({ a with input := (Reader.read type a.input).2 } : Machine ρ σ).Like φ
        { b with input := (Reader.read type a.input).2 } := { h with input := rfl }
    exact hrest.attempt (hrest.store dst _)
  | write src => exact h.print .out src
  | dPrint src => exact h.print .err src
  | label => exact .next h
  | jumpIf equal target left right =>
    have htest := h.jumpTest hs rfl (Command.jumpIf equal target left right).opcode
    simp only [Machine.exec, Likeness.line, Renaming.opcode_command]
    simp only [Renaming.command]
    generalize a.jumpTest p _ _ _ _ = r, b.jumpTest q _ _ _ _ = r' at htest
    cases htest with
    | @ok x _ hx =>
      subst hx
      dsimp only
      split
      · exact .jump _ h
      · exact .next h
    | error f => exact .fault f h
    | hidden hf => exact .hidden hf
  | exit s =>
    have hstatus := h.status s
    simp only [Machine.exec, Likeness.line, Renaming.command]
    generalize a.status s = r, b.status _ = r' at hstatus
    cases hstatus with
    | ok hn =>
      subst hn
      exact .exit _ h
    | error f => exact .fault f h
    | hidden hf => exact .hidden hf
  | brk =>
    -- the dumps differ, but neither of them fails to be written
    exact h.emit_err _ _

/-! ## Steps -/

theorem step (hl : p.line? a.pc = some line) (hs : Shown φ p q a.pc line) :
    Progress.Like φ (a.step p) (b.step q) := by
  have hl' : q.line? b.pc = some (φ.line line) := by
    rw [h.pc]
    exact hs.found
  rw [step_of_line hl, step_of_line hl']
  have hr : Rule p line.order a line.command (a.exec p line) := rule_exec
  have ho := h.exec hs
  generalize a.exec p line = o, b.exec q _ = o' at hr ho
  cases ho with
  | @next a' b' ho =>
    have hpc : b'.pc + 1 = φ.position (a'.pc + 1) := by
      rw [ho.pc, hr.control_of_next.1, hs.next]
    exact .running { ho with pc := hpc, completed := by have := ho.completed; push_cast; omega }
  | jump k ho =>
    exact .running { ho with pc := rfl, completed := by have := ho.completed; push_cast; omega }
  | exit status ho =>
    exact .ended status { ho with completed := by have := ho.completed; push_cast; omega }
  | fault f ho => exact .failed f ho
  | hidden hf => exact .hidden hf

theorem step_of_end (hl : p.line? a.pc = none) (hl' : q.line? b.pc = none) :
    Progress.Like φ (a.step p) (b.step q) := by
  rw [Machine.step_of_end hl, Machine.step_of_end hl']
  exact .ended 0 h

end Machine.Like

/-- Programs whose lines correspond one by one. -/
structure Program.Like (φ : Likeness) (p q : Program) : Prop where
  shown : ∀ k line, p.line? k = some line → Shown φ p q k line
  ended : ∀ k, p.line? k = none → q.line? (φ.position k) = none

/-- The lines stand at the same positions, and the labels lead to the same positions. -/
theorem Program.like_of_map {p q : Program} (hposition : φ.position = id)
    (hlines : q.lines = p.lines.map φ.line)
    (hlabels : ∀ name, q.label (φ.names.label name) = φ.names.result id (p.label name)) :
    p.Like φ q := by
  have hline : ∀ k, q.line? (φ.position k) = (p.line? k).map φ.line := by
    intro k
    rw [hposition, line?, line?, hlines, Array.getElem?_map]
    rfl
  refine ⟨?_, ?_⟩
  · intro k line hl
    refine ⟨?_, ?_, ?_⟩
    · rw [hline, hl, Option.map_some]
    · rw [hposition]
      rfl
    · intro name _
      rw [hposition]
      exact hlabels name
  · intro k hl
    rw [hline, hl, Option.map_none]

/-- A state is like itself if its positions do not change and nothing lies below its stacks. -/
theorem Machine.like_self {m : Machine ρ σ} (hnames : φ.names = .refl)
    (hpc : φ.position m.pc = m.pc) (hcalls : m.calls.map φ.position = m.calls)
    (hbelow : φ.calls = [] ∧ φ.operands = [] ∧ φ.locals = []) (hahead : φ.ahead = 0)
    (herr : Unfailing m.stderr) : m.Like φ m where
  memory := by rw [Likeness.memory_of_refl hnames, hbelow.2.2, List.append_nil]
  calls := by rw [hcalls, hbelow.1, List.append_nil]
  operands := by rw [hbelow.2.1, List.append_nil]
  pc := hpc.symm
  completed := by rw [hahead, Int.add_zero]
  input := rfl
  stdout := rfl
  unfailing := herr
  unfailing' := herr

section Runs

variable [Reader ρ] {p q : Program} {a b : Machine ρ σ}

theorem Machine.Like.step_of_program (h : a.Like φ b) (hpq : p.Like φ q) :
    Progress.Like φ (a.step p) (b.step q) := by
  cases hl : p.line? a.pc with
  | some line => exact h.step hl (hpq.shown _ _ hl)
  | none =>
    refine h.step_of_end hl ?_
    rw [h.pc]
    exact hpq.ended _ hl

/-- Alike states lead to alike states, for any number of steps. -/
theorem Machine.Like.run (h : a.Like φ b) (hpq : p.Like φ q) (n : Nat) :
    Progress.Like φ (a.run p n) (b.run q n) := by
  induction n generalizing a b with
  | zero => exact .running h
  | succ n ih =>
    have hstep := h.step_of_program hpq
    unfold Machine.run
    generalize a.step p = r, b.step q = r' at hstep
    cases hstep with
    | running hstep => exact ih hstep
    | ended status hstep => exact .ended status hstep
    | failed f hstep => exact .failed f hstep
    | hidden hf => exact .hidden hf

end Runs

/-! ## What the other state is -/

/-- The state that is like a given one and has these diagnostics. -/
def Likeness.machine (φ : Likeness) (stderr : σ) (m : Machine ρ σ) : Machine ρ σ where
  memory := φ.memory m.memory
  calls := m.calls.map φ.position ++ φ.calls
  operands := m.operands ++ φ.operands
  pc := φ.position m.pc
  completed := (m.completed + φ.ahead).toNat
  input := m.input
  stdout := m.stdout
  stderr := stderr

theorem Machine.Like.eq_machine {a b : Machine ρ σ} (h : a.Like φ b) :
    b = φ.machine b.stderr a := by
  obtain ⟨memory, calls, operands, pc, completed, input, stdout, stderr⟩ := b
  have hcompleted : completed = (a.completed + φ.ahead).toNat := by
    have hint : (completed : Int) = a.completed + φ.ahead := h.completed
    omega
  simp only [Likeness.machine, Machine.mk.injEq, and_true]
  exact ⟨h.memory, h.calls, h.operands, h.pc, hcompleted, h.input, h.stdout⟩

/-- What becomes of a run whose faults and states are replaced. -/
def Progress.map (fault : Fault → Fault) (image : Machine ρ σ → Machine ρ σ) :
    Progress ρ σ → Progress ρ σ
  | .running m => .running (image m)
  | .ended status m => .ended status (image m)
  | .failed f m => .failed (fault f) (image m)

theorem Progress.Like.machine {r r' : Progress ρ σ} (h : r.Like φ r')
    (hf : ∀ f m, r = .failed f m → ¬ φ.Hides f) : r.machine.Like φ r'.machine := by
  cases h with
  | running h => exact h
  | ended status h => exact h
  | failed f h => exact h
  | hidden h => exact absurd h (hf _ _ rfl)

/-- A run that does not fail at a bottom determines the other up to its diagnostics. -/
theorem Progress.Like.eq_map {r r' : Progress ρ σ} (h : r.Like φ r')
    (hf : ∀ f m, r = .failed f m → ¬ φ.Hides f) :
    r' = r.map φ.names.fault (φ.machine r'.machine.stderr) := by
  cases h with
  | running h => exact congrArg _ h.eq_machine
  | ended status h => exact congrArg _ h.eq_machine
  | failed f h => exact congrArg _ h.eq_machine
  | hidden h => exact absurd h (hf _ _ rfl)

end Ippcode
