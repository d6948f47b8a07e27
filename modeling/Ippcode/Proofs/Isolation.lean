import Ippcode.Proofs.Updates

/-! # Local frames of callers

Only the top local frame can be changed or popped. The frames below it are therefore what they were
for as long as it stays above them, whatever is carried out in the meantime, and a frame that is
popped is the one that was pushed, with the changes that were made through `LF` while it was on top.
-/
namespace Ippcode

namespace Memory

variable {mem mem' : Memory}

/-- So many local frames, the lowest one first. -/
def lowest (mem : Memory) (k : Nat) : List Frame := mem.locals.reverse.take k

theorem lowest_eq_of_frameAt? {k : Nat}
    (h : ∀ height < k, mem'.frameAt? (.stacked height) = mem.frameAt? (.stacked height)) :
    mem'.lowest k = mem.lowest k := by
  apply List.ext_getElem?
  intro height
  simp only [lowest, List.getElem?_take]
  split
  next hlt => exact h height hlt
  next => rfl

theorem lowest_depth (mem : Memory) : mem.lowest mem.depth = mem.locals.reverse := by
  rw [lowest, depth, ← List.length_reverse, List.take_length]

theorem exists_frameAt? {height : Nat} (h : height < mem.depth) :
    ∃ f, mem.frameAt? (.stacked height) = some f := by
  have hlt : height < mem.locals.reverse.length := by rwa [List.length_reverse]
  exact ⟨_, List.getElem?_eq_getElem hlt⟩

theorem depth_of_pushTemporary (h : mem.pushTemporary = .ok mem') : mem'.depth = mem.depth + 1 := by
  unfold pushTemporary at h
  split at h
  · cases h
    rfl
  · cases h

theorem exists_popLocal (h : 0 < mem.depth) : ∃ mem', mem.popLocal = .ok mem' := by
  unfold popLocal
  split
  · exact ⟨_, rfl⟩
  next hnil =>
    rw [depth, hnil] at h
    exact absurd h (Nat.lt_irrefl 0)

theorem depth_of_popLocal (h : mem.popLocal = .ok mem') : mem.depth = mem'.depth + 1 := by
  unfold popLocal at h
  split at h
  next heq =>
    cases h
    simp only [depth, heq, List.length_cons]
  · cases h

theorem site_eq_stacked_iff {tag : FrameTag} {height : Nat} (h : height < mem.depth) :
    Site.stacked height = mem.site tag ↔ tag = .lf ∧ height + 1 = mem.depth := by
  cases tag with
  | gf | tf => simp [site]
  | lf =>
    simp only [site, Site.stacked.injEq, true_and]
    omega

end Memory

namespace Machine

variable {ρ σ : Type} [Reader ρ]

/-- What a command makes of the frame that `LF` denotes. -/
def throughLocal (m : Machine ρ σ) (c : Command) (f : Frame) : Frame :=
  match m.change? c with
  | some (.lf, change) => (change f).toOption.getD f
  | _ => f

/-- What the next step makes of the frame that `LF` denotes. -/
def localStep (p : Program) (m : Machine ρ σ) (f : Frame) : Frame :=
  match m.command? p with
  | some c => m.throughLocal c f
  | none => f

variable {m : Machine ρ σ} {c : Command} {f : Frame}

theorem throughLocal_of_change {change : Frame → Except Fault Frame}
    (h : m.change? c = some (.lf, change)) : m.throughLocal c f = (change f).toOption.getD f := by
  rw [throughLocal, h]

theorem throughLocal_of_none (h : m.change? c = none) : m.throughLocal c f = f := by
  rw [throughLocal, h]

/-- A command leaves a local frame alone if it changes a frame elsewhere. -/
theorem throughLocal_of_site_ne {tag : FrameTag} {change : Frame → Except Fault Frame}
    {height : Nat} (h : m.change? c = some (tag, change)) (hlt : height < m.memory.depth)
    (hsite : Site.stacked height ≠ m.memory.site tag) :
    (if height + 1 = m.memory.depth then m.throughLocal c f else f) = f := by
  cases tag with
  | gf | tf => simp only [throughLocal, h, ite_self]
  | lf =>
    have htop : height + 1 ≠ m.memory.depth :=
      fun htop => hsite ((Memory.site_eq_stacked_iff hlt).2 ⟨rfl, htop⟩)
    rw [if_neg htop]

/-! ## One step -/

/-- A local frame that is there before and after a command was changed through `LF` if it was the
top one, and not at all if it was not. -/
theorem Remembers.frameAt?_stacked {mem : Memory} {height : Nat} (h : Remembers m c mem)
    (hf : m.memory.frameAt? (.stacked height) = some f) (hdeep : height < mem.depth) :
    mem.frameAt? (.stacked height) =
      some (if height + 1 = m.memory.depth then m.throughLocal c f else f) := by
  have hlt := Memory.lt_depth_of_frameAt? hf
  cases h with
  | kept h => rw [throughLocal_of_none h, ite_self, hf]
  | created hc =>
    subst hc
    rw [throughLocal_of_none rfl, ite_self]
    exact hf
  | pushed hc h =>
    subst hc
    obtain ⟨-, -, -, hat⟩ := Memory.frameAt?_of_pushTemporary h
    rw [throughLocal_of_none rfl, ite_self, hat, if_neg (by omega), hf]
  | popped hc h =>
    have hdepth := Memory.depth_of_popLocal h
    obtain ⟨top, htop, -, -, -, hat⟩ := Memory.frameAt?_of_popLocal h
    rw [hat, if_neg (by omega), hf, if_neg (by omega)]
  | @changed tag change _ h hu =>
    obtain ⟨g, g', hg, hg', hat⟩ := Memory.frameAt?_of_update hu
    rw [hat]
    by_cases hsite : Site.stacked height = m.memory.site tag
    · obtain ⟨rfl, htop⟩ := (Memory.site_eq_stacked_iff hlt).1 hsite
      have hsame : f = g := Option.some.inj (hf.symm.trans (hsite ▸ hg))
      rw [if_pos hsite, if_pos htop, throughLocal_of_change h, hsame, hg']
      rfl
    · rw [if_neg hsite, throughLocal_of_site_ne h hlt hsite, hf]
  | @refused tag change fault h hu =>
    rw [hf]
    by_cases hsite : Site.stacked height = m.memory.site tag
    · -- the top frame exists, so what faulted was the change of it
      obtain ⟨rfl, htop⟩ := (Memory.site_eq_stacked_iff hlt).1 hsite
      have hframe : m.memory.frame .lf = .ok f := Memory.frame_eq_ok_iff.2 (hsite ▸ hf)
      obtain hnone | ⟨g, hg, hfault⟩ := Memory.update_eq_error_iff.1 hu
      · cases hframe.symm.trans hnone
      · cases hframe.symm.trans hg
        rw [if_pos htop, throughLocal_of_change h, hfault]
        rfl
    · rw [throughLocal_of_site_ne h hlt hsite]

variable [Writer σ] {p : Program} {n : Nat}

theorem depth_of_step (m : Machine ρ σ) :
    m.memory.depth ≤ (m.step p).machine.memory.depth ∨
      p.opcode? m.pc = some .popFrame ∧ m.memory.depth = (m.step p).machine.memory.depth + 1 := by
  obtain ⟨-, heq⟩ | ⟨c, hc, h⟩ := remembers_of_step (p := p) m
  · rw [heq]
    exact .inl (Nat.le_refl _)
  generalize (m.step p).machine.memory = mem at h
  cases h with
  | kept | refused | created => exact .inl (Nat.le_refl _)
  | changed _ hu => exact .inl (Nat.le_of_eq (Memory.shape_of_update hu).2.symm)
  | pushed _ h =>
    have hdepth := Memory.depth_of_pushTemporary h
    exact .inl (by omega)
  | popped hpop h =>
    rw [hpop] at hc
    exact .inr ⟨opcode?_of_command? hc, Memory.depth_of_popLocal h⟩

theorem frameAt?_of_step {height : Nat} (hf : m.memory.frameAt? (.stacked height) = some f)
    (hdeep : height < (m.step p).machine.memory.depth) :
    (m.step p).machine.memory.frameAt? (.stacked height) =
      some (if height + 1 = m.memory.depth then m.localStep p f else f) := by
  unfold localStep
  obtain ⟨hnone, heq⟩ | ⟨c, hc, h⟩ := remembers_of_step (p := p) m
  · simp only [hnone]
    rw [heq, ite_self, hf]
  · simp only [hc]
    exact h.frameAt?_stacked hf hdeep

/-- A step leaves every local frame but the top one as it is. -/
theorem frameAt?_of_hidden {height : Nat} (h : height + 1 < m.memory.depth) :
    (m.step p).machine.memory.frameAt? (.stacked height) =
      m.memory.frameAt? (.stacked height) := by
  obtain ⟨f, hf⟩ := Memory.exists_frameAt? (Nat.lt_of_succ_lt h)
  have hdeep : height < (m.step p).machine.memory.depth := by
    obtain hle | ⟨_, hpop⟩ := depth_of_step (p := p) m
    · omega
    · omega
  rw [frameAt?_of_step hf hdeep, if_neg (by omega), hf]

theorem frames_of_pushFrame (hc : m.command? p = some .pushFrame)
    (hf : m.memory.temporary = some f) :
    (m.step p).machine.memory.depth = m.memory.depth + 1 ∧
      (m.step p).machine.memory.frameAt? (.stacked m.memory.depth) = some f ∧
      (m.step p).machine.memory.lowest m.memory.depth = m.memory.locals.reverse := by
  obtain ⟨mem, hpush⟩ : ∃ mem, m.memory.pushTemporary = .ok mem := by
    rw [Memory.pushTemporary, hf]
    exact ⟨_, rfl⟩
  have hmem : (m.step p).machine.memory = mem := by
    rw [step_of_command? hc fun _ => .pushFrame hpush]
    rfl
  obtain ⟨-, -, -, hat⟩ := Memory.frameAt?_of_pushTemporary hpush
  rw [hmem]
  refine ⟨Memory.depth_of_pushTemporary hpush, by rw [hat, if_pos rfl, hf], ?_⟩
  rw [← Memory.lowest_depth]
  refine Memory.lowest_eq_of_frameAt? ?_
  intro height hlt
  rw [hat, if_neg (Nat.ne_of_lt hlt)]

theorem temporary_of_popFrame (hc : m.command? p = some .popFrame) (hpos : 0 < m.memory.depth) :
    (m.step p).machine.memory.temporary =
      m.memory.frameAt? (.stacked (m.step p).machine.memory.depth) := by
  obtain ⟨mem, hpop⟩ := Memory.exists_popLocal hpos
  have hmem : (m.step p).machine.memory = mem := by
    rw [step_of_command? hc fun _ => .popFrame hpop]
    rfl
  obtain ⟨top, htop, -, htemporary, -, -⟩ := Memory.frameAt?_of_popLocal hpop
  have hdepth := Memory.depth_of_popLocal hpop
  have htop : top = mem.depth := by omega
  rw [hmem, htemporary, htop]

/-! ## As long as a frame is on top of others -/

theorem frameAt?_of_deep {k height : Nat} (h : ∀ i < n, k < (m.after p i).memory.depth)
    (hk : height < k) :
    (m.after p n).memory.frameAt? (.stacked height) = m.memory.frameAt? (.stacked height) := by
  induction n with
  | zero => rfl
  | succ n ih =>
    have hlast := h n (Nat.lt_succ_self n)
    have hbefore := ih (fun i hi => h i (Nat.lt_succ_of_lt hi))
    rw [after_succ, frameAt?_of_hidden (by omega), hbefore]

theorem lowest_of_deep {k : Nat} (h : ∀ i < n, k < (m.after p i).memory.depth) :
    (m.after p n).memory.lowest k = m.memory.lowest k :=
  Memory.lowest_eq_of_frameAt? (fun _ hk => frameAt?_of_deep h hk)

/-- A pushed frame as it is after `i` steps, of which the first one pushes it: each step that finds
it on top makes of it what it makes of the frame of `LF`, and the others leave it alone. -/
def pushedFrame (p : Program) (m : Machine ρ σ) (f : Frame) : Nat → Frame
  | 0 => f
  | i + 1 =>
    if m.memory.depth + 1 = (m.after p i).memory.depth then
      (m.after p i).localStep p (pushedFrame p m f i)
    else pushedFrame p m f i

theorem frameAt?_of_pushed
    (hpush : (m.step p).machine.memory.frameAt? (.stacked m.memory.depth) = some f)
    (hdeep : ∀ i, 0 < i → i ≤ n → m.memory.depth < (m.after p i).memory.depth) {i : Nat}
    (hpos : 0 < i) (hi : i ≤ n) :
    (m.after p i).memory.frameAt? (.stacked m.memory.depth) = some (m.pushedFrame p f i) := by
  induction i with
  | zero => exact absurd hpos (Nat.lt_irrefl 0)
  | succ i ih =>
    rcases Nat.eq_zero_or_pos i with rfl | hpos'
    · rw [pushedFrame, after_zero, if_neg (Nat.succ_ne_self _)]
      exact hpush
    · have hbefore := ih hpos' (Nat.le_of_succ_le hi)
      exact frameAt?_of_step hbefore (hdeep (i + 1) hpos hi)

/-- The lowest local frames stay what they are as long as there is one above them. So when the frame
that a `PUSHFRAME` pushed is popped again, the local frames are those from before, and the temporary
frame is the pushed one with what was changed in it through `LF` while it was on top. -/
theorem callers_frames_isolated (p : Program) (m : Machine ρ σ) (n : Nat) :
    (∀ k, (∀ i < n, k < (m.after p i).memory.depth) →
      (m.after p n).memory.lowest k = m.memory.lowest k) ∧
    ∀ f, m.command? p = some .pushFrame → m.memory.temporary = some f →
      Matched p .popFrame (fun a => a.memory.depth) m n →
        (m.after p (n + 1)).memory.locals = m.memory.locals ∧
          (m.after p (n + 1)).memory.temporary = some (m.pushedFrame p f n) := by
  refine ⟨fun k => lowest_of_deep, ?_⟩
  intro f hc hf h
  obtain ⟨hdepth, hpush, hlowest⟩ := frames_of_pushFrame hc hf
  have hdeep : ∀ i, 0 < i → i ≤ n → m.memory.depth < (m.after p i).memory.depth := by
    intro i hpos hi
    exact h.lt_depth depth_of_step (by omega) hpos hi
  have hback : (m.after p (n + 1)).memory.depth = m.memory.depth := h.closes.2
  constructor
  · -- the frames below the pushed one stay from the step behind the push to the end
    have hstretch : ∀ i < n, m.memory.depth < ((m.step p).machine.after p i).memory.depth := by
      intro i hi
      rw [← after_succ_first]
      exact hdeep (i + 1) (Nat.succ_pos i) hi
    have hkept := lowest_of_deep hstretch
    rw [← after_succ_first, hlowest, ← hback, Memory.lowest_depth] at hkept
    exact List.reverse_inj.1 hkept
  · obtain ⟨c, hlast, hop⟩ := exists_command_of_opcode? h.closes.1
    rw [Command.eq_of_opcode (d := .popFrame) hop rfl] at hlast
    have hlastdeep := hdeep n h.later (Nat.le_refl n)
    have hpop := temporary_of_popFrame hlast (by omega)
    rw [← after_succ, hback, frameAt?_of_pushed hpush hdeep h.later (Nat.le_refl n)] at hpop
    exact hpop

/-- A frame that is pushed above one with a variable of the same name, assigned through `LF`, hidden
by a third one and popped again. -/
theorem callers_frames_isolated_nested :
    ∃ (p : Program) (m m' : Machine) (f : Frame), Program.ofInstructions
        [⟨1, .createFrame, []⟩, ⟨2, .defVar, [.symbol (.var ⟨.tf, "a"⟩)]⟩, ⟨3, .pushFrame, []⟩,
          ⟨4, .move, [.symbol (.var ⟨.lf, "a"⟩), .symbol (.const (.int 1))]⟩,
          ⟨5, .createFrame, []⟩, ⟨6, .defVar, [.symbol (.var ⟨.tf, "a"⟩)]⟩, ⟨7, .pushFrame, []⟩,
          ⟨8, .move, [.symbol (.var ⟨.lf, "a"⟩), .symbol (.const (.int 5))]⟩,
          ⟨9, .createFrame, []⟩, ⟨10, .pushFrame, []⟩, ⟨11, .defVar, [.symbol (.var ⟨.lf, "b"⟩)]⟩,
          ⟨12, .popFrame, []⟩, ⟨13, .popFrame, []⟩] = .ok p ∧
      Reachable p m ∧ m.command? p = some .pushFrame ∧
      Matched p .popFrame (fun a => a.memory.depth) m 6 ∧ m.run p 7 = .running m' ∧
      (∀ i < 6, 1 < ((m.after p 1).after p i).memory.depth) ∧
      ((m.after p 1).after p 6).memory.lowest 1 = (m.after p 1).memory.lowest 1 ∧
      m'.memory.locals = m.memory.locals ∧ m'.memory.temporary = some (m.pushedFrame p f 6) ∧
      (m.pushedFrame p f 6).get? "a" = some (.int 5) := by
  let p : Program :=
    ⟨#[⟨1, .createFrame⟩, ⟨2, .defVar ⟨.tf, "a"⟩⟩, ⟨3, .pushFrame⟩,
      ⟨4, .move ⟨.lf, "a"⟩ (.const (.int 1))⟩, ⟨5, .createFrame⟩, ⟨6, .defVar ⟨.tf, "a"⟩⟩,
      ⟨7, .pushFrame⟩, ⟨8, .move ⟨.lf, "a"⟩ (.const (.int 5))⟩, ⟨9, .createFrame⟩,
      ⟨10, .pushFrame⟩, ⟨11, .defVar ⟨.lf, "b"⟩⟩, ⟨12, .popFrame⟩, ⟨13, .popFrame⟩], []⟩
  have hp : Program.ofInstructions _ = .ok p :=
    Program.ofInstructions_of_perm p.lines.toList (.refl _) (by decide) (by decide) rfl
  let caller : Frame := ⟨[("a", .int 1)], by decide⟩
  let callee : Frame := ⟨[("a", .uninit)], by decide⟩
  let m : Machine :=
    { start ⟨[]⟩ (.empty none) (.empty none) with
      memory := ⟨.empty, some callee, [caller]⟩, pc := 6, completed := 6 }
  have hstart : (start m.input m.stdout m.stderr).run p 6 = .running m := rfl
  have hm : Reachable p m := (Reachable.start _ _ _).of_run hstart
  have hmatch : Matched p .popFrame (fun a => a.memory.depth) m 6 := by
    refine ⟨by decide, by decide, ?_⟩
    have hfirst : ∀ i < 6, 0 < i → ¬ Closes p .popFrame (fun a => a.memory.depth) m i := by
      decide
    exact fun i hpos hi => hfirst i hi hpos
  let m' : Machine :=
    { m with
      memory := ⟨.empty, some ⟨[("a", .int 5)], by decide⟩, [caller]⟩, pc := 13, completed := 13 }
  have hrun : m.run p 7 = .running m' := rfl
  obtain ⟨-, hpop⟩ := callers_frames_isolated p m 6
  obtain ⟨hlocals, htemporary⟩ := hpop callee rfl rfl hmatch
  have hafter : m.after p (6 + 1) = m' := after_of_run hrun
  rw [hafter] at hlocals htemporary
  have hpushed : (m.pushedFrame p callee 6).get? "a" = some (.int 5) := by decide
  obtain ⟨hlowest, -⟩ := callers_frames_isolated p (m.after p 1) 6
  have hdeep : ∀ i < 6, 1 < ((m.after p 1).after p i).memory.depth := by decide
  exact ⟨p, m, m', callee, hp, hm, rfl, hmatch, hrun, hdeep, hlowest 1 hdeep, hlocals, htemporary,
    hpushed⟩

end Machine

end Ippcode
