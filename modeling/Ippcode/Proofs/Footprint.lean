import Ippcode.Proofs.Acceptance
import Ippcode.Proofs.Memory
import Ippcode.Proofs.Reachable

/-! # What a line may change

A line that is carried out changes what belongs to its opcode and nothing else. Frames are followed
as they move from site to site, so that a value is known to stay also in a frame that is hidden or
that changes its name.
-/
namespace Ippcode

namespace Command

def destination? : Command → Option VarRef
  | move dst _ | popS dst | unary _ dst _ | binary _ dst _ _ | setChar dst _ _ | read dst _
  | type dst _ => some dst
  | _ => none

/-- Where a command takes the frame of a site; nowhere if the frame is given up. -/
def carries (mem : Memory) : Command → Site → Option Site
  | createFrame, .temporary => none
  | pushFrame, .temporary => some (.stacked mem.depth)
  | popFrame, .temporary => none
  | popFrame, .stacked height =>
    some (if height + 1 = mem.depth then .temporary else .stacked height)
  | _, s => some s

def Assigns (c : Command) (mem : Memory) (s : Site) (name : String) : Prop :=
  ∃ dst, c.destination? = some dst ∧ s = mem.site dst.frame ∧ name = dst.name

def frameOpcodes : List Opcode := [.createFrame, .pushFrame, .popFrame]

variable {c : Command} {mem : Memory}

theorem head?_args_of_destination? {dst : VarRef} (h : c.destination? = some dst) :
    c.args.head? = some (.symbol (.var dst)) := by
  cases c <;> cases h <;> rfl

theorem opcode_of_destination? {dst : VarRef} (h : c.destination? = some dst) :
    c.opcode ∉ .defVar :: frameOpcodes := by
  cases c with
  | unary op => cases op <;> simp [opcode, UnaryOp.opcode, frameOpcodes]
  | binary op => cases op <;> simp [opcode, BinaryOp.opcode, frameOpcodes]
  | move | popS | setChar | read | type => simp [opcode, frameOpcodes]
  | _ => cases h

theorem carries_eq_some (h : c.opcode ∉ frameOpcodes) (s : Site) : c.carries mem s = some s := by
  cases c with
  | createFrame | pushFrame | popFrame => exact absurd (by simp [opcode, frameOpcodes]) h
  | _ => rfl

end Command

open Command (frameOpcodes)

/-- What a command keeps of memory. A frame that is not given up keeps its variables unless one is
declared, and their values except the one that is assigned; and no frame comes to be but the empty
one of `CREATEFRAME`. -/
structure Kept (c : Command) (mem mem' : Memory) : Prop where
  shape : c.opcode ∉ frameOpcodes →
    mem'.temporary.isSome = mem.temporary.isSome ∧ mem'.depth = mem.depth
  carried : ∀ s s' g, c.carries mem s = some s' → mem.frameAt? s = some g →
    ∃ g', mem'.frameAt? s' = some g' ∧ (c.opcode ≠ .defVar → g'.names = g.names) ∧
      ∀ name v, g.get? name = some v → ¬ c.Assigns mem s name → g'.get? name = some v
  created : ∀ s' g', mem'.frameAt? s' = some g' →
    (∃ s, (mem.frameAt? s).isSome ∧ c.carries mem s = some s') ∨
      c = .createFrame ∧ s' = .temporary ∧ g' = .empty

namespace Kept

variable {c : Command} {mem mem' : Memory}

theorem refl (h : c.opcode ∉ frameOpcodes) : Kept c mem mem where
  shape _ := ⟨rfl, rfl⟩
  carried := by
    intro s s' g hs hg
    rw [Command.carries_eq_some h] at hs
    cases hs
    exact ⟨g, hg, fun _ => rfl, fun _ _ hv _ => hv⟩
  created := by
    intro s' g' hg
    exact .inl ⟨s', by simp [hg], Command.carries_eq_some h s'⟩

theorem of_update {tag : FrameTag} {change : Frame → Except Fault Frame}
    (h : mem.update tag change = .ok mem') (hop : c.opcode ∉ frameOpcodes)
    (hchange : ∀ g g', change g = .ok g' → (c.opcode ≠ .defVar → g'.names = g.names) ∧
      ∀ name v, g.get? name = some v → ¬ c.Assigns mem (mem.site tag) name →
        g'.get? name = some v) :
    Kept c mem mem' := by
  obtain ⟨old, new, hold, hnew, hat⟩ := Memory.frameAt?_of_update h
  refine ⟨fun _ => Memory.shape_of_update h, ?_, ?_⟩
  · intro s s' g hs hg
    rw [Command.carries_eq_some hop] at hs
    cases hs
    by_cases hsite : s = mem.site tag
    · subst hsite
      cases hold.symm.trans hg
      exact ⟨new, by rw [hat, if_pos rfl], hchange _ _ hnew⟩
    · exact ⟨g, by rw [hat, if_neg hsite, hg], fun _ => rfl, fun _ _ hv _ => hv⟩
  · intro s' g' hg
    refine .inl ⟨s', ?_, Command.carries_eq_some hop s'⟩
    by_cases hsite : s' = mem.site tag
    · rw [hsite, hold]
      rfl
    · rw [hat, if_neg hsite] at hg
      rw [hg]
      rfl

theorem of_store {dst : VarRef} {x : Value} (hdst : c.destination? = some dst)
    (h : mem.store dst x = .ok mem') : Kept c mem mem' := by
  have hop := Command.opcode_of_destination? hdst
  refine of_update h (fun hmem => hop (List.mem_cons_of_mem _ hmem)) ?_
  intro g g' hg
  unfold Frame.set at hg
  split at hg
  · cases hg
    refine ⟨fun _ => g.names_assign .., ?_⟩
    intro name v hv hassigns
    have hne : name ≠ dst.name := fun heq => hassigns ⟨dst, hdst, rfl, heq⟩
    simp [hv, hne]
  · cases hg

theorem of_declare {dst : VarRef} (h : mem.declare dst = .ok mem') :
    Kept (.defVar dst) mem mem' := by
  refine of_update h (by simp [Command.opcode, frameOpcodes]) ?_
  intro g g' hg
  refine ⟨fun hop => absurd rfl hop, ?_⟩
  intro name v hv _
  rw [Frame.get?_of_declare hg]
  unfold Frame.declare at hg
  split at hg
  · cases hg
  next hnew =>
    have hne : name ≠ dst.name := by
      rintro rfl
      rw [Frame.get?_eq_none_iff.2 hnew] at hv
      cases hv
    rw [if_neg hne, hv]

theorem of_moved (hop : c.opcode ∈ frameOpcodes)
    (hcarried : ∀ s s' g, c.carries mem s = some s' → mem.frameAt? s = some g →
      mem'.frameAt? s' = some g)
    (hcreated : ∀ s' g', mem'.frameAt? s' = some g' →
      (∃ s, (mem.frameAt? s).isSome ∧ c.carries mem s = some s') ∨
        c = .createFrame ∧ s' = .temporary ∧ g' = .empty) : Kept c mem mem' where
  shape h := absurd hop h
  carried s s' g hs hg := ⟨g, hcarried s s' g hs hg, fun _ => rfl, fun _ _ hv _ => hv⟩
  created := hcreated

theorem of_createTemporary : Kept .createFrame mem mem.createTemporary := by
  refine of_moved (by simp [Command.opcode, frameOpcodes]) ?_ ?_
  · intro s s' g hs hg
    cases s with
    | temporary => cases hs
    | global | stacked =>
      cases hs
      exact hg
  · intro s' g' hg
    cases s' with
    | temporary =>
      cases hg
      exact .inr ⟨rfl, rfl, rfl⟩
    | global => exact .inl ⟨.global, rfl, rfl⟩
    | stacked height => exact .inl ⟨.stacked height, Option.isSome_of_mem hg, rfl⟩

theorem of_pushTemporary (h : mem.pushTemporary = .ok mem') : Kept .pushFrame mem mem' := by
  obtain ⟨hglobal, hnone, hsome, hat⟩ := Memory.frameAt?_of_pushTemporary h
  refine of_moved (by simp [Command.opcode, frameOpcodes]) ?_ ?_
  · intro s s' g hs hg
    cases s with
    | global =>
      cases hs
      rwa [Memory.frameAt?, hglobal]
    | temporary =>
      cases hs
      rwa [hat, if_pos rfl]
    | stacked height =>
      cases hs
      have hlt := Memory.lt_depth_of_frameAt? hg
      rwa [hat, if_neg (by omega)]
  · intro s' g' hg
    left
    cases s' with
    | global => exact ⟨.global, rfl, rfl⟩
    | temporary => simp [Memory.frameAt?, hnone] at hg
    | stacked height =>
      by_cases htop : height = mem.depth
      · exact ⟨.temporary, hsome, by rw [htop]; rfl⟩
      · rw [hat, if_neg htop] at hg
        exact ⟨.stacked height, Option.isSome_of_mem hg, rfl⟩

theorem of_popLocal (h : mem.popLocal = .ok mem') : Kept .popFrame mem mem' := by
  obtain ⟨top, hdepth, hglobal, htemporary, hsome, hat⟩ := Memory.frameAt?_of_popLocal h
  have hcarries : ∀ height, Command.popFrame.carries mem (.stacked height) =
      some (if height = top then .temporary else .stacked height) := by
    intro height
    simp only [Command.carries, hdepth, Nat.add_right_cancel_iff]
  refine of_moved (by simp [Command.opcode, frameOpcodes]) ?_ ?_
  · intro s s' g hs hg
    cases s with
    | global =>
      cases hs
      rwa [Memory.frameAt?, hglobal]
    | temporary => cases hs
    | stacked height =>
      rw [hcarries] at hs
      cases hs
      by_cases htop : height = top
      · rw [if_pos htop, Memory.frameAt?, htemporary, ← htop, hg]
      · rw [if_neg htop, hat, if_neg htop, hg]
  · intro s' g' hg
    left
    cases s' with
    | global => exact ⟨.global, rfl, rfl⟩
    | temporary => exact ⟨.stacked top, htemporary ▸ hsome, by rw [hcarries, if_pos rfl]⟩
    | stacked height =>
      rw [hat] at hg
      by_cases htop : height = top
      · simp [htop] at hg
      · rw [if_neg htop] at hg
        exact ⟨.stacked height, Option.isSome_of_mem hg, by rw [hcarries, if_neg htop]⟩

end Kept

variable {ρ σ : Type}

def Outcome.done? : Outcome ρ σ → Option (Machine ρ σ)
  | .next m | .jump _ m | .exit _ m => some m
  | .fault .. => none

namespace Machine

theorem destination?_of_computed {m : Machine ρ σ} {c : Command} {dst : VarRef}
    {r : Except Fault Value} (h : m.computed c = some (dst, r)) : c.destination? = some dst := by
  cases c <;> cases h <;> rfl

/-- What a command does to each part of the machine. -/
structure Footprint [Reader ρ] (m : Machine ρ σ) (c : Command) (m' : Machine ρ σ) : Prop where
  call : c.opcode = .call → m'.calls = (m.pc + 1) :: m.calls
  ret : c.opcode = .ret → ∃ k, m.calls = k :: m'.calls
  calls : c.opcode ∉ [.call, .ret] → m'.calls = m.calls
  pushS : c.opcode = .pushS → ∃ v, m'.operands = v :: m.operands
  popS : c.opcode = .popS → ∃ v, m.operands = v :: m'.operands
  operands : c.opcode ∉ [.pushS, .popS] → m'.operands = m.operands
  stdout : c.opcode ≠ .write → m'.stdout = m.stdout
  stderr : c.opcode ∉ [.dPrint, .brk] → m'.stderr = m.stderr
  input : m'.input = m.inputAfter c
  memory : Kept c m.memory m'.memory

variable [Reader ρ] {c : Command} {m m' : Machine ρ σ}

theorem Footprint.moved (h : Footprint m c m') (pc completed : Nat) :
    Footprint m c { m' with pc, completed } :=
  ⟨h.call, h.ret, h.calls, h.pushS, h.popS, h.operands, h.stdout, h.stderr, h.input, h.memory⟩

variable [Writer σ] {p : Program} {order : Int64} {o : Outcome ρ σ}

/-! ## Part by part -/

theorem Rule.calls_of_done (h : Rule p order m c o) (hd : o.done? = some m') :
    (c.opcode = .call → m'.calls = (m.pc + 1) :: m.calls) ∧
      (c.opcode = .ret → ∃ k, m.calls = k :: m'.calls) ∧
      (c.opcode ∉ [.call, .ret] → m'.calls = m.calls) := by
  cases h with
  | assign hc hs =>
    cases hd
    have hop : c.opcode ∉ [.call, .ret] := not_mem_of_computed hc (by decide)
    simp only [List.mem_cons, List.not_mem_nil, or_false, not_or] at hop
    exact ⟨fun h => absurd h hop.1, fun h => absurd h hop.2, fun _ => rfl⟩
  | ret h =>
    cases hd
    simp [Command.opcode, h]
  | @jumpIf equal | @stay equal =>
    cases hd
    cases equal <;> simp [Command.opcode]
  | _ => cases hd <;> simp [Command.opcode]

theorem Rule.operands_of_done (h : Rule p order m c o) (hd : o.done? = some m') :
    (c.opcode = .pushS → ∃ v, m'.operands = v :: m.operands) ∧
      (c.opcode = .popS → ∃ v, m.operands = v :: m'.operands) ∧
      (c.opcode ∉ [.pushS, .popS] → m'.operands = m.operands) := by
  cases h with
  | assign hc hs =>
    cases hd
    have hop : c.opcode ∉ [.pushS, .popS] := not_mem_of_computed hc (by decide)
    simp only [List.mem_cons, List.not_mem_nil, or_false, not_or] at hop
    exact ⟨fun h => absurd h hop.1, fun h => absurd h hop.2, fun _ => rfl⟩
  | popS h hs =>
    cases hd
    simp [Command.opcode, h]
  | @jumpIf equal | @stay equal =>
    cases hd
    cases equal <;> simp [Command.opcode]
  | _ => cases hd <;> simp [Command.opcode]

theorem Rule.outputs_of_done (h : Rule p order m c o) (hd : o.done? = some m') :
    (c.opcode ≠ .write → m'.stdout = m.stdout) ∧
      (c.opcode ∉ [.dPrint, .brk] → m'.stderr = m.stderr) := by
  cases h <;> cases hd <;> simp [Command.opcode]

theorem Rule.input_of_done (h : Rule p order m c o) (hd : o.done? = some m') :
    m'.input = m.inputAfter c := by
  cases h with
  | assign hc hs =>
    cases hd
    exact (inputAfter_of_computed hc).symm
  | _ => cases hd <;> rfl

theorem Rule.kept_of_done (h : Rule p order m c o) (hd : o.done? = some m') :
    Kept c m.memory m'.memory := by
  cases h with
  | assign hc hs =>
    cases hd
    exact .of_store (destination?_of_computed hc) hs
  | popS h hs | read hs =>
    cases hd
    exact .of_store rfl hs
  | createFrame =>
    cases hd
    exact .of_createTemporary
  | pushFrame h =>
    cases hd
    exact .of_pushTemporary h
  | popFrame h =>
    cases hd
    exact .of_popLocal h
  | defVar h =>
    cases hd
    exact .of_declare h
  | @jumpIf equal | @stay equal =>
    cases hd
    cases equal <;> exact .refl (by simp [Command.opcode, frameOpcodes])
  | _ => cases hd <;> exact .refl (by simp [Command.opcode, frameOpcodes])

theorem Rule.footprint_of_done (h : Rule p order m c o) (hd : o.done? = some m') :
    Footprint m c m' := by
  obtain ⟨hcall, hret, hcalls⟩ := h.calls_of_done hd
  obtain ⟨hpush, hpop, hoperands⟩ := h.operands_of_done hd
  obtain ⟨hout, herr⟩ := h.outputs_of_done hd
  exact ⟨hcall, hret, hcalls, hpush, hpop, hoperands, hout, herr, h.input_of_done hd,
    h.kept_of_done hd⟩

/-! ## Steps -/

/-- Whatever the program and the state, a line that is carried out without a fault changes no more
than its opcode allows, and assigns no variable but that of its first operand. -/
theorem step_footprint {line : Line} (hl : p.line? m.pc = some line)
    (h : m.step p = .running m' ∨ ∃ status, m.step p = .ended status m') :
    Footprint m line.command m' ∧ ∀ dst, line.command.destination? = some dst →
      line.instruction.args.head? = some (.symbol (.var dst)) := by
  refine ⟨?_, fun dst => Command.head?_args_of_destination?⟩
  obtain ⟨o, hr, ho⟩ := rule_of_line hl
  rw [ho] at h
  cases o with
  | next | jump | exit =>
    obtain h | ⟨_, h⟩ := h <;> cases h
    exact (hr.footprint_of_done rfl).moved ..
  | fault => obtain h | ⟨_, h⟩ := h <;> cases h

/-- Of two local variables of one name, an assignment reaches the visible one only. -/
theorem step_footprint_hidden :
    ∃ (p : Program) (m m' : Machine) (g : Frame), Program.ofInstructions
        [⟨1, .createFrame, []⟩, ⟨2, .defVar, [.symbol (.var ⟨.tf, "x"⟩)]⟩, ⟨3, .pushFrame, []⟩,
          ⟨4, .createFrame, []⟩, ⟨5, .defVar, [.symbol (.var ⟨.tf, "x"⟩)]⟩, ⟨6, .pushFrame, []⟩,
          ⟨7, .move, [.symbol (.var ⟨.lf, "x"⟩), .symbol (.const (.int 9))]⟩] = .ok p ∧
      Reachable p m ∧ m.step p = .running m' ∧ m'.memory.load ⟨.lf, "x"⟩ = .ok (.int 9) ∧
      m'.memory.frameAt? (.stacked 0) = some g ∧ g.get? "x" = some .uninit := by
  let p : Program :=
    ⟨#[⟨1, .createFrame⟩, ⟨2, .defVar ⟨.tf, "x"⟩⟩, ⟨3, .pushFrame⟩, ⟨4, .createFrame⟩,
      ⟨5, .defVar ⟨.tf, "x"⟩⟩, ⟨6, .pushFrame⟩, ⟨7, .move ⟨.lf, "x"⟩ (.const (.int 9))⟩], []⟩
  have hp : Program.ofInstructions _ = .ok p :=
    Program.ofInstructions_of_perm p.lines.toList (.refl _) (by decide) (by decide) rfl
  let g : Frame := ⟨[("x", .uninit)], by decide⟩
  let m : Machine :=
    { start ⟨[]⟩ (.empty none) (.empty none) with
      memory := ⟨.empty, none, [g, g]⟩, pc := 6, completed := 6 }
  have hrun : (start m.input m.stdout m.stderr).run p 6 = .running m := rfl
  have hm : Reachable p m := (Reachable.start _ _ _).of_run hrun
  let m' : Machine :=
    { m with memory := ⟨.empty, none, [⟨[("x", .int 9)], by decide⟩, g]⟩, pc := 7, completed := 7 }
  have hstep : m.step p = .running m' := rfl
  obtain ⟨hfoot, -⟩ := step_footprint rfl (.inl hstep)
  obtain ⟨g', hg', -, hkept⟩ := hfoot.memory.carried (.stacked 0) _ g rfl rfl
  have hload : m'.memory.load ⟨.lf, "x"⟩ = .ok (.int 9) := rfl
  have hget : g.get? "x" = some .uninit := rfl
  refine ⟨p, m, m', g', hp, hm, hstep, hload, hg', hkept "x" .uninit hget ?_⟩
  rintro ⟨dst, hdst, hsite, -⟩
  cases hdst
  cases hsite

end Machine

end Ippcode
