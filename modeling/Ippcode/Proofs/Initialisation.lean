import Ippcode.Proofs.Footprint
import Ippcode.Proofs.Reentry
import Ippcode.Proofs.Updates

/-! # What is assigned stays assigned

Nothing that a program can compute, read or take from a stack is `uninit`, so no variable becomes
unassigned again. Frames only grow while they live: they keep their names and get a new one only
where it is declared. A frame is followed from site to site as it is pushed and popped.
-/
namespace Ippcode

/-! ## Values -/

namespace Operator

variable {op : Opcode} {a b v : Value}

theorem arithmetic_ne_uninit {f : Int64 → Int64 → Except Fault Int64}
    (h : arithmetic op f a b = .ok v) : v ≠ .uninit := by
  unfold arithmetic at h
  split at h
  · obtain ⟨n, _, rfl⟩ := Except.map_eq_ok.1 h
    simp
  · cases h

theorem logical_ne_uninit {f : Bool → Bool → Bool} (h : logical op f a b = .ok v) :
    v ≠ .uninit := by
  unfold logical at h
  split at h <;> cases h
  simp

theorem relational_ne_uninit {test : Value → Value → Option Bool}
    (h : relational op test a b = .ok v) : v ≠ .uninit := by
  obtain ⟨_, _, h⟩ := Except.bind_eq_ok.1 h
  split at h
  · cases h
  · split at h <;> cases h
    simp

theorem concat_ne_uninit (h : concat a b = .ok v) : v ≠ .uninit := by
  unfold concat at h
  split at h <;> cases h
  simp

theorem setChar_ne_uninit {s : Value} (h : setChar s a b = .ok v) : v ≠ .uninit := by
  unfold setChar at h
  split at h
  · obtain ⟨k, _, h⟩ := Except.bind_eq_ok.1 h
    split at h <;> cases h
    simp
  · cases h
  · cases h

end Operator

open Operator

theorem UnaryOp.apply_ne_uninit {op : UnaryOp} {a v : Value} (h : op.apply a = .ok v) :
    v ≠ .uninit := by
  unfold apply at h
  split at h
  · cases h
    simp
  · unfold character at h
    split at h <;> cases h
    simp
  · cases h
    simp
  · cases h

theorem BinaryOp.apply_ne_uninit {op : BinaryOp} {a b v : Value} (h : op.apply a b = .ok v) :
    v ≠ .uninit := by
  cases op with
  | add | sub | mul | idiv => exact arithmetic_ne_uninit h
  | lt => exact relational_ne_uninit h
  | gt =>
    change relational .gt (fun a b => less? b a) a b = .ok v at h
    exact relational_ne_uninit h
  | and | or => exact logical_ne_uninit h
  | concat => exact concat_ne_uninit h
  | eq | stri2Int | getChar =>
    obtain ⟨r, _, rfl⟩ := Except.map_eq_ok.1 h
    simp

namespace Machine

variable {ρ σ : Type} {m : Machine ρ σ} {c : Command} {v : Value}

theorem copied_ne_uninit {s : Symbol} (h : m.copied s = .ok v) : v ≠ .uninit := by
  obtain ⟨x, _, h⟩ := Except.bind_eq_ok.1 h
  split at h
  · cases h
  next hx =>
    cases h
    exact hx

theorem computed_ne_uninit {dst : VarRef} (h : m.computed c = some (dst, .ok v)) :
    v ≠ .uninit := by
  cases c <;> simp only [computed, Option.some.injEq, Prod.mk.injEq, reduceCtorEq] at h
  case move => exact copied_ne_uninit h.2
  case unary =>
    obtain ⟨a, _, h⟩ := Except.bind_eq_ok.1 h.2
    exact UnaryOp.apply_ne_uninit h
  case binary =>
    obtain ⟨a, _, h⟩ := Except.bind_eq_ok.1 h.2
    obtain ⟨b, _, h⟩ := Except.bind_eq_ok.1 h
    exact BinaryOp.apply_ne_uninit h
  case setChar =>
    obtain ⟨s, _, h⟩ := Except.bind_eq_ok.1 h.2
    obtain ⟨i, _, h⟩ := Except.bind_eq_ok.1 h
    obtain ⟨r, _, h⟩ := Except.bind_eq_ok.1 h
    exact setChar_ne_uninit h
  case type =>
    obtain ⟨x, _, h⟩ := Except.bind_eq_ok.1 h.2
    cases h
    simp

/-- A reader gives a value of the requested type or none at all, which is read as nil. -/
theorem nextRead_ne_uninit [Reader ρ] (m : Machine ρ σ) (type : DataType) :
    m.nextRead type ≠ .uninit := by
  unfold nextRead
  cases hread : (Reader.read type m.input).1 with
  | none => simp
  | some x =>
    rintro rfl
    have hname := Reader.typeName_of_read hread
    cases type <;> simp [Value.typeName, DataType.name] at hname

theorem assigned?_ne_uninit [Reader ρ] (hm : ∀ x ∈ m.operands, x ≠ .uninit) {dst : VarRef}
    (h : m.assigned? c = some (dst, v)) : v ≠ .uninit := by
  cases c with
  | popS =>
    obtain ⟨x, hx, heq⟩ := Option.map_eq_some_iff.1 h
    cases heq
    exact hm v (List.mem_of_mem_head? hx)
  | read dst type =>
    cases h
    exact nextRead_ne_uninit m type
  | _ =>
    simp only [assigned?, Option.bind_eq_some_iff, Option.map_eq_some_iff] at h
    obtain ⟨⟨dst', r⟩, hc, x, hr, heq⟩ := h
    cases heq
    cases r with
    | ok y =>
      cases hr
      exact computed_ne_uninit hc
    | error => cases hr

variable [Reader ρ] [Writer σ] {p : Program}

theorem Rule.operands_ne_uninit {order : Int64} {o : Outcome ρ σ} (h : Rule p order m c o)
    (hm : ∀ x ∈ m.operands, x ≠ .uninit) :
    ∀ x ∈ o.progress.machine.operands, x ≠ .uninit := by
  cases h with
  | @pushS _ v h =>
    intro x hx
    rcases List.mem_cons.1 hx with rfl | hx
    · exact copied_ne_uninit h
    · exact hm x hx
  | popS h | popLost h =>
    intro x hx
    exact hm x (h ▸ List.mem_cons_of_mem _ hx)
  | _ => exact hm

theorem Reachable.operands_ne_uninit (h : Reachable p m) : ∀ x ∈ m.operands, x ≠ .uninit := by
  induction h with
  | start input stdout stderr =>
    intro x hx
    cases hx
  | @step m _ ih =>
    cases hl : p.line? m.pc with
    | none =>
      rw [step_of_end hl]
      exact ih
    | some line =>
      obtain ⟨o, hr, ho⟩ := rule_of_line hl
      rw [ho]
      exact hr.operands_ne_uninit ih

end Machine

/-! ## Frames -/

/-- A later state of a frame: no name is lost, what is new satisfies `new`, and a variable that had
a value has one. -/
structure Frame.Grown (new : String → Prop) (g g' : Frame) : Prop where
  declared : ∀ name ∈ g.names, name ∈ g'.names
  fresh : ∀ name ∈ g'.names, name ∈ g.names ∨ new name
  assigned : ∀ name v, g.get? name = some v → v ≠ .uninit →
    ∃ v', g'.get? name = some v' ∧ v' ≠ .uninit

namespace Frame.Grown

variable {new new' : String → Prop} {g g' g'' : Frame}

theorem refl (new : String → Prop) (g : Frame) : Grown new g g :=
  ⟨fun _ h => h, fun _ h => .inl h, fun _ v h hv => ⟨v, h, hv⟩⟩

theorem mono (h : Grown new g g') (hnew : ∀ name, new name → new' name) : Grown new' g g' :=
  ⟨h.declared, fun name hn => (h.fresh name hn).imp_right (hnew name), h.assigned⟩

theorem trans (h : Grown new g g') (h' : Grown new g' g'') : Grown new g g'' where
  declared name hn := h'.declared name (h.declared name hn)
  fresh name hn := by
    obtain hn | hnew := h'.fresh name hn
    · exact h.fresh name hn
    · exact .inr hnew
  assigned name v hv hne := by
    obtain ⟨v', hv', hne'⟩ := h.assigned name v hv hne
    exact h'.assigned name v' hv' hne'

theorem of_get? (hnames : g'.names = g.names)
    (hget : ∀ name v, g.get? name = some v → g'.get? name = some v) : Grown new g g' :=
  ⟨fun _ h => hnames ▸ h, fun _ h => .inl (hnames ▸ h), fun name v h hv => ⟨v, hget name v h, hv⟩⟩

theorem of_set {name : String} {v : Value} (hv : v ≠ .uninit) (h : g.set name v = .ok g') :
    Grown new g g' := by
  unfold Frame.set at h
  split at h
  · cases h
    refine ⟨by simp, fun _ hn => .inl (by simpa using hn), ?_⟩
    intro other x hx hne
    by_cases ho : other = name
    · subst ho
      exact ⟨v, by simp [hx], hv⟩
    · exact ⟨x, by simp [hx, ho], hne⟩
  · cases h

theorem of_declare {name : String} (h : g.declare name = .ok g') : Grown (· = name) g g' := by
  have hget := Frame.get?_of_declare h
  unfold Frame.declare at h
  split at h
  · cases h
  next hnew =>
    cases h
    refine ⟨fun _ hn => List.mem_cons_of_mem _ hn, ?_, ?_⟩
    · intro other hn
      obtain rfl | hn := List.mem_cons.1 hn
      · exact .inr rfl
      · exact .inl hn
    · intro other x hx hne
      have ho : other ≠ name := by
        rintro rfl
        rw [Frame.get?_eq_none_iff.2 hnew] at hx
        cases hx
      exact ⟨x, by rw [hget, if_neg ho, hx], hne⟩

end Frame.Grown

/-! ## Along a run -/

namespace Machine

variable {ρ σ : Type} [Reader ρ] {p : Program} {m : Machine ρ σ} {s s' : Site} {g : Frame}

/-- A command that moves no frame leaves each frame at its site, and one of them with a variable
more or with one assigned. -/
theorem Remembers.grown {c : Command} {mem : Memory} (h : Remembers m c mem)
    (hm : ∀ x ∈ m.operands, x ≠ .uninit) (hop : c.opcode ∉ Command.frameOpcodes)
    (hg : m.memory.frameAt? s = some g) :
    ∃ g', mem.frameAt? s = some g' ∧
      g.Grown (fun name => ∃ dst, c = .defVar dst ∧ m.memory.declare dst = .ok mem ∧
        s = m.memory.site dst.frame ∧ name = dst.name) g' := by
  cases h with
  | kept | refused => exact ⟨g, hg, .refl _ g⟩
  | created hc | pushed hc | popped hc =>
    subst hc
    exact absurd (by simp [Command.opcode, Command.frameOpcodes]) hop
  | @changed tag change mem h hu =>
    obtain ⟨old, new, hold, hnew, hat⟩ := Memory.frameAt?_of_update hu
    by_cases hsite : s = m.memory.site tag
    · have hsame : g = old := Option.some.inj (hg.symm.trans (hsite ▸ hold))
      refine ⟨new, by rw [hat, if_pos hsite], ?_⟩
      obtain ⟨dst, rfl, rfl, rfl⟩ | ⟨dst, v, hassigned, rfl, rfl⟩ := change?_eq_some h
      · rw [hsame]
        exact (Frame.Grown.of_declare hnew).mono fun name hname => ⟨dst, rfl, hu, hsite, hname⟩
      · rw [hsame]
        exact .of_set (assigned?_ne_uninit hm hassigned) hnew
    · exact ⟨g, by rw [hat, if_neg hsite, hg], .refl _ g⟩

variable [Writer σ]

/-- Where the next step takes the frame of a site. A step that faults moves no frame. -/
def carried (p : Program) (m : Machine ρ σ) (s : Site) : Option Site :=
  match m.step p, m.command? p with
  | .failed .., _ | _, none => some s
  | _, some c => c.carries m.memory s

/-- Where the frame of a site is after so many steps; nowhere if it was given up. -/
def follow (p : Program) (m : Machine ρ σ) (s : Site) : Nat → Option Site
  | 0 => some s
  | n + 1 => (m.follow p s n).bind fun s' => (m.after p n).carried p s'

/-- The next step declares a variable in the frame of a site. -/
def Declares (p : Program) (m : Machine ρ σ) (s : Site) (name : String) : Prop :=
  ∃ dst, m.command? p = some (.defVar dst) ∧
    m.memory.declare dst = .ok (m.step p).machine.memory ∧ s = m.memory.site dst.frame ∧
    name = dst.name

theorem carried_of_failed {f : Fault} {m' : Machine ρ σ} (h : m.step p = .failed f m') :
    m.carried p s = some s := by
  simp only [carried, h]

theorem carried_of_done {line : Line} {o : Outcome ρ σ} {m' : Machine ρ σ}
    (hl : p.line? m.pc = some line) (hs : m.step p = o.progress) (hd : o.done? = some m') :
    m.carried p s = line.command.carries m.memory s := by
  unfold carried
  rw [hs, command?_of_line hl]
  cases o <;> cases hd <;> rfl

/-- One step: a frame that is not given up has grown where the step has taken it. -/
theorem grown_of_step (hm : ∀ x ∈ m.operands, x ≠ .uninit) (hs : m.carried p s = some s')
    (hg : m.memory.frameAt? s = some g) :
    ∃ g', (m.step p).machine.memory.frameAt? s' = some g' ∧ g.Grown (m.Declares p s) g' := by
  cases hl : p.line? m.pc with
  | none =>
    have hc : m.command? p = none := by rw [command?, hl, Option.map_none]
    simp only [carried, step_of_end hl, hc, Option.some.injEq] at hs
    rw [step_of_end hl, ← hs]
    exact ⟨g, hg, .refl _ g⟩
  | some line =>
    obtain ⟨o, hr, ho⟩ := rule_of_line hl
    cases hd : o.done? with
    | none =>
      obtain ⟨f, m', rfl⟩ : ∃ f m', o = .fault f m' := by
        cases o <;> cases hd
        exact ⟨_, _, rfl⟩
      rw [carried_of_failed ho] at hs
      cases hs
      have hmem : (m.step p).machine.memory = m.memory := by
        rw [ho]
        exact hr.effect_of_fault.memory
      exact ⟨g, by rw [hmem, hg], .refl _ g⟩
    | some m' =>
      rw [carried_of_done hl ho hd] at hs
      by_cases hop : line.command.opcode ∈ Command.frameOpcodes
      · -- the frame may have moved, but it is the same one
        have hmem : (m.step p).machine.memory = m'.memory := by
          rw [ho]
          cases o <;> cases hd <;> rfl
        obtain ⟨g', hg', hnames, hget⟩ := (hr.kept_of_done hd).carried s s' g hs hg
        have hdefVar : line.command.opcode ≠ .defVar := by
          intro heq
          rw [heq] at hop
          exact absurd hop (by decide)
        refine ⟨g', by rw [hmem, hg'], .of_get? (hnames hdefVar) ?_⟩
        intro name v hv
        refine hget name v hv ?_
        rintro ⟨dst, hdst, -⟩
        exact Command.opcode_of_destination? hdst (List.mem_cons_of_mem _ hop)
      · rw [Command.carries_eq_some hop] at hs
        cases hs
        obtain ⟨g', hg', hgrown⟩ := hr.remembers.grown hm hop hg
        rw [← ho] at hg' hgrown
        refine ⟨g', hg', hgrown.mono ?_⟩
        rintro name ⟨dst, hdst, hdeclare, hsite, hname⟩
        exact ⟨dst, by rw [command?_of_line hl, hdst], hdeclare, hsite, hname⟩

/-- One of so many steps declares a variable in the frame that is followed from a site. -/
def DeclaresWithin (p : Program) (m : Machine ρ σ) (s : Site) (n : Nat) (name : String) : Prop :=
  ∃ i < n, ∃ s', m.follow p s i = some s' ∧ (m.after p i).Declares p s' name

/-- Any number of steps: a frame has grown where it is followed to. -/
theorem Reachable.grown (hm : Reachable p m) {n : Nat} (hs : m.follow p s n = some s')
    (hg : m.memory.frameAt? s = some g) :
    ∃ g', (m.after p n).memory.frameAt? s' = some g' ∧ g.Grown (m.DeclaresWithin p s n) g' := by
  induction n generalizing s' with
  | zero =>
    cases hs
    exact ⟨g, hg, .refl _ g⟩
  | succ n ih =>
    obtain ⟨s₁, hs₁, hs⟩ := Option.bind_eq_some_iff.1 hs
    obtain ⟨g₁, hg₁, hgrown⟩ := ih hs₁
    obtain ⟨g', hg', hstep⟩ := grown_of_step (hm.after n).operands_ne_uninit hs hg₁
    refine ⟨g', hg', (hgrown.mono ?_).trans (hstep.mono ?_)⟩
    · rintro name ⟨i, hi, hdeclares⟩
      exact ⟨i, Nat.lt_succ_of_lt hi, hdeclares⟩
    · intro name hdeclares
      exact ⟨n, Nat.lt_succ_self n, s₁, hs₁, hdeclares⟩

/-- In every state of every run no operand is unassigned. However many steps follow, a frame that is
still there has all the names it had, each new one by a `DEFVAR` that resolved to it, and a value
wherever there was one. -/
theorem initialisation_permanent (hm : Reachable p m) :
    (∀ v ∈ m.operands, v ≠ .uninit) ∧
      ∀ n s s' g, m.follow p s n = some s' → m.memory.frameAt? s = some g →
        ∃ g', (m.after p n).memory.frameAt? s' = some g' ∧
          g.Grown (m.DeclaresWithin p s n) g' :=
  ⟨hm.operands_ne_uninit, fun _ _ _ _ hs hg => hm.grown hs hg⟩

/-- A temporary frame is pushed, gets a variable more and is popped. Its first variable was assigned
from a constant without a value. -/
theorem initialisation_permanent_pushed :
    ∃ (p : Program) (m : Machine) (g g' : Frame), Program.ofInstructions
        [⟨1, .createFrame, []⟩, ⟨2, .defVar, [.symbol (.var ⟨.tf, "a"⟩)]⟩,
          ⟨3, .type, [.symbol (.var ⟨.tf, "a"⟩), .symbol (.const .uninit)]⟩, ⟨4, .pushFrame, []⟩,
          ⟨5, .defVar, [.symbol (.var ⟨.lf, "b"⟩)]⟩, ⟨6, .pushS, [.symbol (.var ⟨.lf, "a"⟩)]⟩,
          ⟨7, .popFrame, []⟩] = .ok p ∧
      Reachable p m ∧ (∀ v ∈ (m.after p 4).operands, v ≠ .uninit) ∧
      (m.after p 4).operands = [.str ""] ∧
      m.follow p .temporary 2 = some (.stacked 0) ∧ m.follow p .temporary 4 = some .temporary ∧
      m.memory.frameAt? .temporary = some g ∧ g.get? "a" = some (.str "") ∧ "b" ∉ g.names ∧
      (m.after p 4).memory.frameAt? .temporary = some g' ∧ "b" ∈ g'.names ∧
      m.DeclaresWithin p .temporary 4 "b" ∧ ∃ v, g'.get? "a" = some v ∧ v ≠ .uninit := by
  let p : Program :=
    ⟨#[⟨1, .createFrame⟩, ⟨2, .defVar ⟨.tf, "a"⟩⟩, ⟨3, .type ⟨.tf, "a"⟩ (.const .uninit)⟩,
      ⟨4, .pushFrame⟩, ⟨5, .defVar ⟨.lf, "b"⟩⟩, ⟨6, .pushS (.var ⟨.lf, "a"⟩)⟩, ⟨7, .popFrame⟩], []⟩
  have hp : Program.ofInstructions _ = .ok p :=
    Program.ofInstructions_of_perm p.lines.toList (.refl _) (by decide) (by decide) rfl
  let g : Frame := ⟨[("a", .str "")], by decide⟩
  let m : Machine :=
    { start ⟨[]⟩ (.empty none) (.empty none) with
      memory := ⟨.empty, some g, []⟩, pc := 3, completed := 3 }
  have hrun : (start m.input m.stdout m.stderr).run p 3 = .running m := rfl
  have hm : Reachable p m := (Reachable.start _ _ _).of_run hrun
  obtain ⟨hoperands, -⟩ := initialisation_permanent (hm.after 4)
  obtain ⟨-, hgrown⟩ := initialisation_permanent hm
  have hfollow : m.follow p .temporary 4 = some .temporary := by decide
  obtain ⟨g', hg', hgrown⟩ := hgrown 4 .temporary .temporary g hfollow rfl
  have hlater : (m.after p 4).memory.frameAt? .temporary =
      some ⟨[("b", .uninit), ("a", .str "")], by decide⟩ := by decide
  obtain rfl := Option.some.inj (hlater.symm.trans hg')
  have hb : "b" ∉ g.names := by decide
  have hdeclares : m.DeclaresWithin p .temporary 4 "b" :=
    (hgrown.fresh "b" (by decide)).resolve_left hb
  exact ⟨p, m, g, _, hp, hm, hoperands, by decide, by decide, hfollow, rfl, rfl, hb, hg', by decide,
    hdeclares, hgrown.assigned "a" (.str "") rfl (by decide)⟩

end Machine

end Ippcode
