import Ippcode.Proofs.Canonical
import Ippcode.Proofs.Traces

/-! # Other orders

Instructions can be given other orders. If these rise as the orders did, then the lines of the
program stand where they stood and its labels too, so that what runs cannot tell the two lists
apart. A list that is not accepted is refused for a reason of the same kind.
-/
namespace Ippcode

def Instruction.reorder (f : Int64 → Int64) (i : Instruction) : Instruction :=
  { i with order := f i.order }

open Instruction

/-- Orders that occur stay positive, and they rise as they did. -/
structure Rises (f : Int64 → Int64) (is : List Instruction) : Prop where
  positive : ∀ i ∈ is, 0 < f i.order
  rises : ∀ i ∈ is, ∀ j ∈ is, i.order < j.order → f i.order < f j.order

/-- All that is asked of a list but that its labels differ. -/
structure Sound (is : List Instruction) : Prop where
  fits : ∀ i ∈ is, i.fault? = none
  positive : ∀ i ∈ is, 0 < i.order
  orders : (is.map order).Nodup

variable {f : Int64 → Int64} {is js : List Instruction}

theorem wellFormed_iff : WellFormed is ↔ Sound is ∧ (labelNames is).Nodup := by
  constructor
  · rintro ⟨hfits, hpos, horders, hlabels⟩
    exact ⟨⟨hfits, hpos, horders⟩, hlabels⟩
  · rintro ⟨⟨hfits, hpos, horders⟩, hlabels⟩
    exact ⟨hfits, hpos, horders, hlabels⟩

/-- What a list is refused for is of one kind if it is sound, and of another if it is not. -/
theorem Refused.kind_iff {kind : FaultKind} {g : Fault} (h : Refused is kind g) :
    kind = .semantic ∧ Sound is ∨ kind = .programStructure ∧ ¬ Sound is := by
  cases h with
  | @misfit _ _ i _ split _ fault =>
    refine .inr ⟨rfl, fun hs => ?_⟩
    have hi : i ∈ is := by simp [split]
    simp [hs.fits i hi] at fault
  | @notPositive _ _ i _ split _ order =>
    refine .inr ⟨rfl, fun hs => ?_⟩
    have hi : i ∈ is := by simp [split]
    exact Int64.not_le.2 (hs.positive i hi) order
  | repeatedOrder _ _ least => exact .inr ⟨rfl, fun hs => least.duplicate.not_nodup hs.orders⟩
  | repeatedLabel fits positive orders => exact .inl ⟨rfl, fits, positive, orders⟩

theorem kind_eq_of_refused {kind kind' : FaultKind} {g g' : Fault} (h : Refused is kind g)
    (h' : Refused js kind' g') (hsound : Sound js ↔ Sound is) : kind' = kind := by
  obtain ⟨rfl, hs⟩ | ⟨rfl, hs⟩ := h.kind_iff
  · obtain ⟨hkind, _⟩ | ⟨_, hs'⟩ := h'.kind_iff
    · exact hkind
    · exact absurd (hsound.2 hs) hs'
  · obtain ⟨_, hs'⟩ | ⟨hkind, _⟩ := h'.kind_iff
    · exact absurd (hsound.1 hs') hs
    · exact hkind

theorem Sound.of_perm (h : Sound is) (hperm : js.Perm is) : Sound js := by
  refine ⟨?_, ?_, (hperm.map order).nodup_iff.2 h.orders⟩
  · exact fun i hi => h.fits i (hperm.mem_iff.1 hi)
  · exact fun i hi => h.positive i (hperm.mem_iff.1 hi)

theorem Rises.of_perm (h : Rises f is) (hperm : js.Perm is) : Rises f js := by
  refine ⟨fun i hi => h.positive i (hperm.mem_iff.1 hi), ?_⟩
  exact fun i hi j hj => h.rises i (hperm.mem_iff.1 hi) j (hperm.mem_iff.1 hj)

theorem Rises.order_eq (h : Rises f is) {i j : Instruction} (hi : i ∈ is) (hj : j ∈ is)
    (heq : f i.order = f j.order) : i.order = j.order := by
  rcases Int64.lt_or_le i.order j.order with hlt | hle
  · exact absurd heq (Int64.ne_of_lt (h.rises i hi j hj hlt))
  · by_contra hne
    have hlt : j.order < i.order := Int64.lt_of_le_of_ne hle (Ne.symm hne)
    exact Int64.ne_of_lt (h.rises j hj i hi hlt) heq.symm

theorem fault?_reorder {i : Instruction} : (i.reorder f).fault? = none ↔ i.fault? = none := by
  rw [fault?_eq_none_iff, fault?_eq_none_iff, reorder]

theorem nodup_orders_reorder (h : Rises f is) :
    ((is.map (reorder f)).map order).Nodup ↔ (is.map order).Nodup := by
  have hmap : (is.map (reorder f)).map order = (is.map order).map f := by
    simp [Function.comp_def, reorder]
  rw [hmap]
  constructor
  · exact List.Nodup.of_map f
  · refine List.Nodup.map_on ?_
    intro o ho o' ho' heq
    obtain ⟨i, hi, rfl⟩ := List.mem_map.1 ho
    obtain ⟨j, hj, rfl⟩ := List.mem_map.1 ho'
    exact h.order_eq hi hj heq

theorem sound_reorder (hpos : ∀ i ∈ is, 0 < i.order) (h : Rises f is) :
    Sound (is.map (reorder f)) ↔ Sound is := by
  constructor
  · rintro ⟨hfits, _, horders⟩
    refine ⟨?_, hpos, (nodup_orders_reorder h).1 horders⟩
    exact fun i hi => fault?_reorder.1 (hfits _ (List.mem_map_of_mem hi))
  · rintro ⟨hfits, _, horders⟩
    refine ⟨?_, List.forall_mem_map.2 h.positive, (nodup_orders_reorder h).2 horders⟩
    exact List.forall_mem_map.2 fun i hi => fault?_reorder.2 (hfits i hi)

theorem labelName?_reorder (i : Instruction) : (i.reorder f).labelName? = i.labelName? := by
  obtain ⟨order, op, args⟩ := i
  cases op <;> rcases args with _ | ⟨_ | _ | _, _⟩ <;> rfl

theorem labelNames_reorder : labelNames (is.map (reorder f)) = labelNames is := by
  simp only [labelNames, List.filterMap_map]
  exact List.filterMap_congr fun i _ => labelName?_reorder i

theorem wellFormed_reorder (hpos : ∀ i ∈ is, 0 < i.order) (h : Rises f is) :
    WellFormed (is.map (reorder f)) ↔ WellFormed is := by
  rw [wellFormed_iff, wellFormed_iff, sound_reorder hpos h, labelNames_reorder]

theorem LabelTable.extend_reorder {f : Int64 → Int64} {table t : LabelTable} {k : Nat}
    {is : List Instruction} (h : extend table k is = .ok t) :
    extend table k (is.map (Instruction.reorder f)) = .ok t := by
  fun_induction extend table k is with
  | case1 => exact h
  | case2 | case4 => cases h
  | case3 table k order rest name args hnew ih =>
    rw [List.map_cons, reorder, extend, if_neg hnew]
    exact ih h
  | case5 table k i rest hi ih =>
    rw [List.map_cons, extend, ih h]
    intro order args heq
    obtain ⟨o, op, as⟩ := i
    cases heq
    exact hi o as rfl

variable {p : Program} {given : List Instruction}

/-- The lines of a program with other orders. -/
def Program.reorder (f : Int64 → Int64) (p : Program) : Program :=
  { p with lines := p.lines.map fun l => ⟨f l.order, l.command⟩ }

/-- What is accepted is accepted with other orders, and its lines stand where they stood. -/
theorem Program.ofInstructions_reorder (hp : ofInstructions is = .ok p) (hf : Rises f is)
    (hperm : given.Perm is) :
    ofInstructions (given.map (Instruction.reorder f)) = .ok (p.reorder f) := by
  have hp' : p.instructions.Perm is := perm_instructions hp
  have hmem : ∀ l ∈ p.lines.toList, l.instruction ∈ is :=
    fun l hl => hp'.mem_iff.1 (List.mem_map_of_mem hl)
  obtain ⟨_, _, _, _, hlines, hlabels⟩ := exists_lines_of_ofInstructions hp
  let lines := p.lines.toList.map fun l => (⟨f l.order, l.command⟩ : Line)
  have hpos : ∀ l ∈ lines, 0 < l.order :=
    List.forall_mem_map.2 fun l hl => hf.positive _ (hmem l hl)
  have hsorted : lines.Pairwise (·.order < ·.order) := by
    refine List.pairwise_map.2 ((pairwise_lines hp).imp_of_mem ?_)
    intro a b ha hb hab
    exact hf.rises _ (hmem a ha) _ (hmem b hb) hab
  have hrecords : lines.map Line.instruction = p.instructions.map (Instruction.reorder f) := by
    simp [lines, instructions, Function.comp_def, Line.instruction, Instruction.reorder]
  have htable : LabelTable.ofInstructions (lines.map Line.instruction) = .ok p.labels := by
    rw [hrecords, instructions, hlines]
    exact LabelTable.extend_reorder hlabels
  have haccepted := ofInstructions_of_perm lines (.refl _) hpos hsorted htable
  have hsame : (⟨lines.toArray, p.labels⟩ : Program) = p.reorder f := by
    simp [lines, reorder, ← List.map_toArray]
  rw [hsame] at haccepted
  refine ofInstructions_eq_of_perm haccepted ?_
  rw [hrecords]
  exact (hperm.trans hp'.symm).map _

/-- What is not accepted is not accepted with other orders, for a reason of the same kind. -/
theorem Program.error_reorder (hpos : ∀ i ∈ is, 0 < i.order) (hf : Rises f is)
    (hperm : given.Perm is) {g : Fault} (hp : ofInstructions is = .error g) :
    ∃ g', ofInstructions (given.map (Instruction.reorder f)) = .error g' ∧ g'.kind = g.kind := by
  have hpos' : ∀ i ∈ given, 0 < i.order := fun i hi => hpos i (hperm.mem_iff.1 hi)
  have hf' := hf.of_perm hperm
  cases hq : ofInstructions (given.map (Instruction.reorder f)) with
  | ok q =>
    obtain ⟨p, hgiven⟩ := exists_ok_iff.2 ((wellFormed_reorder hpos' hf').1 (wellFormed_of_ok hq))
    have hok := ofInstructions_eq_of_perm hgiven hperm.symm
    rw [hp] at hok
    cases hok
  | error g' =>
    refine ⟨g', rfl, kind_eq_of_refused (refused_of_error hp) (refused_of_error hq) ?_⟩
    rw [sound_reorder hpos' hf']
    exact ⟨fun h => h.of_perm hperm.symm, fun h => h.of_perm hperm⟩

/-! ## Runs -/

/-- Nothing differs but the orders. -/
def Likeness.reordering (f : Int64 → Int64) : Likeness := { Likeness.refl with order := f }

theorem Likeness.level_reordering : (Likeness.reordering f).Level := ⟨rfl, rfl, rfl, rfl⟩

theorem Program.like_reorder (f : Int64 → Int64) (p : Program) :
    p.Like (.reordering f) (p.reorder f) := by
  refine like_of_map rfl ?_ fun name => (Renaming.result_refl _).symm
  have hline : (Likeness.reordering f).line = fun l => ⟨f l.order, l.command⟩ := by
    funext l
    simp [Likeness.line, Likeness.reordering, Likeness.refl]
  rw [hline, reorder]

open Writer (Unfailing)

variable {ρ σ : Type}

theorem Likeness.machine_reordering (f : Int64 → Int64) (stderr : σ) :
    (Likeness.reordering f).machine stderr = fun m : Machine ρ σ => { m with stderr } := by
  funext m
  have hmemory := Likeness.memory_of_refl (φ := .reordering f) rfl m.memory
  simp only [Likeness.machine, hmemory]
  simp [Likeness.reordering, Likeness.refl]

/-- The line of a dump that tells the order of the break. -/
def orderLine (o : Int64) : String := s!"Instruction order number: {Text.Decimal.render o}\n"

theorem Machine.exists_dump_eq (m : Machine ρ σ) :
    ∃ before rest, ∀ o, m.dump o = before ++ orderLine o ++ rest := by
  have happend : ∀ head x a b c d e : String,
      head ++ x ++ a ++ b ++ c ++ d ++ e = head ++ x ++ (a ++ (b ++ (c ++ (d ++ e)))) := by
    intro head x a b c d e
    simp only [String.append_assoc]
  exact ⟨_, _, fun o => happend _ (orderLine o) _ _ _ _ _⟩

/-- Texts that differ in the line that tells an order. -/
def DumpReordered (f : Int64 → Int64) (o : Int64) (text text' : String) : Prop :=
  ∃ before rest, text = before ++ orderLine o ++ rest ∧ text' = before ++ orderLine (f o) ++ rest

variable [Writer σ]

theorem Machine.like_reordering (f : Int64 → Int64) {m : Machine ρ σ} (h : Unfailing m.stderr) :
    m.Like (.reordering f) m :=
  like_self rfl rfl (List.map_id _) ⟨rfl, rfl, rfl⟩ rfl h

theorem Likeness.Dumps.reordered {o : Int64} {text text' : String}
    (h : (Likeness.reordering f).Dumps ρ σ o text text') : DumpReordered f o text text' := by
  obtain ⟨a, b, hab, rfl, rfl⟩ := h
  obtain ⟨before, rest, hdump⟩ := a.exists_dump_eq
  refine ⟨before, rest, hdump o, ?_⟩
  have hb := hab.eq_machine
  rw [Likeness.machine_reordering] at hb
  rw [hb]
  exact hdump (f o)

variable [Reader ρ] {m : Machine ρ σ}

namespace Machine

theorem run_reorder (herr : Unfailing m.stderr) (n : Nat) :
    m.run (p.reorder f) n = (m.run p n).map id fun a =>
      { a with stderr := Writer.after m.stderr (Event.handed .err (m.trace (p.reorder f) n)) } := by
  have hrun := (like_reordering f herr).run_eq Likeness.level_reordering
    (Program.like_reorder f p) n
  have hfault : (Likeness.reordering f).names.fault = id := funext Renaming.fault_refl
  rwa [hfault, Likeness.machine_reordering] at hrun

theorem trace_reorder (herr : Unfailing m.stderr) (n : Nat) :
    Traced f (DumpReordered f) (m.trace p n) (m.trace (p.reorder f) n) := by
  have htrace := (like_reordering f herr).trace Likeness.level_reordering
    (Program.like_reorder f p) n
  exact htrace.mono fun _ _ _ => Likeness.Dumps.reordered

/-- The orders of instructions count only by how they compare. A list in any arrangement, with
other orders that rise as its own do, is refused as the list is, for a reason of the same kind and
without anything being read or written; or both are accepted, and after every number of steps the
runs are in the same state but for the diagnostics. These are what the values handed to them make
of them, and the traces of the two runs are the same but for the orders, also where a break dumps
one. -/
theorem only_relative_order_matters (hpos : ∀ i ∈ is, 0 < i.order) (hf : Rises f is)
    (hperm : given.Perm is) (herr : Unfailing m.stderr) :
    (∃ g g', Program.ofInstructions is = .error g ∧
        Program.ofInstructions (given.map (Instruction.reorder f)) = .error g' ∧
        g'.kind = g.kind ∧ ∀ n, m.launch is n = .failed g m ∧
          m.launch (given.map (Instruction.reorder f)) n = .failed g' m) ∨
      ∃ p q, Program.ofInstructions is = .ok p ∧
        Program.ofInstructions (given.map (Instruction.reorder f)) = .ok q ∧
        ∀ n, m.launch (given.map (Instruction.reorder f)) n =
            (m.launch is n).map id (fun a =>
              { a with stderr := Writer.after m.stderr (Event.handed .err (m.trace q n)) }) ∧
          (m.launch is n).machine.stderr =
            Writer.after m.stderr (Event.handed .err (m.trace p n)) ∧
          Traced f (DumpReordered f) (m.trace p n) (m.trace q n) := by
  cases hp : Program.ofInstructions is with
  | error g =>
    obtain ⟨g', hq, hkind⟩ := Program.error_reorder hpos hf hperm hp
    exact .inl ⟨g, g', rfl, hq, hkind, fun n => ⟨launch_of_error hp m n, launch_of_error hq m n⟩⟩
  | ok p =>
    have hq := Program.ofInstructions_reorder hp hf hperm
    refine .inr ⟨p, p.reorder f, rfl, hq, fun n => ?_⟩
    rw [launch_of_ok hp, launch_of_ok hq]
    exact ⟨run_reorder herr n, sink_run p m n .err, trace_reorder herr n⟩

/-- Orders ten times as high, in another arrangement, with a jump over a line and a break. -/
theorem only_relative_order_matters_tens :
    ∃ (p q : Program) (a b : Machine),
      Program.ofInstructions [⟨1, .jump, [.label "end"]⟩, ⟨3, .label, [.label "end"]⟩,
        ⟨2, .write, [.symbol (.const .nil)]⟩, ⟨4, .brk, []⟩,
        ⟨5, .exit, [.symbol (.const (.int 7))]⟩] = .ok p ∧
      Program.ofInstructions [⟨40, .brk, []⟩, ⟨10, .jump, [.label "end"]⟩,
        ⟨50, .exit, [.symbol (.const (.int 7))]⟩, ⟨30, .label, [.label "end"]⟩,
        ⟨20, .write, [.symbol (.const .nil)]⟩] = .ok q ∧
      (start ⟨[]⟩ (.empty none) (.empty none)).run p 9 = .ended 7 a ∧ a.completed = 4 ∧
      (start ⟨[]⟩ (.empty none) (.empty none)).run q 9 = .ended 7 b ∧ b.completed = 4 ∧
      Traced (· * 10) (DumpReordered (· * 10))
        ((start ⟨[]⟩ (.empty none) (.empty none) : Machine).trace p 9)
        ((start ⟨[]⟩ (.empty none) (.empty none) : Machine).trace q 9) := by
  let is : List Instruction := [⟨1, .jump, [.label "end"]⟩, ⟨3, .label, [.label "end"]⟩,
    ⟨2, .write, [.symbol (.const .nil)]⟩, ⟨4, .brk, []⟩, ⟨5, .exit, [.symbol (.const (.int 7))]⟩]
  let given : List Instruction := [⟨4, .brk, []⟩, ⟨1, .jump, [.label "end"]⟩,
    ⟨5, .exit, [.symbol (.const (.int 7))]⟩, ⟨3, .label, [.label "end"]⟩,
    ⟨2, .write, [.symbol (.const .nil)]⟩]
  let p : Program := ⟨#[⟨1, .jump "end"⟩, ⟨2, .write (.const .nil)⟩, ⟨3, .label "end"⟩, ⟨4, .brk⟩,
    ⟨5, .exit (.const (.int 7))⟩], [("end", 2)]⟩
  have hp : Program.ofInstructions is = .ok p :=
    Program.ofInstructions_of_perm
      [⟨1, .jump "end"⟩, ⟨3, .label "end"⟩, ⟨2, .write (.const .nil)⟩, ⟨4, .brk⟩,
        ⟨5, .exit (.const (.int 7))⟩]
      (by decide) (by decide) (by decide) rfl
  have hperm : given.Perm is := by decide
  have hf : Rises (· * 10) is := ⟨by decide, by decide⟩
  let m : Machine := start ⟨[]⟩ (.empty none) (.empty none)
  have herr : Unfailing m.stderr := Sink.unfailing_of_unlimited rfl
  obtain ⟨g, _, hg, _⟩ | ⟨p', q, hp', hq, h⟩ :=
    only_relative_order_matters (by decide) hf hperm herr
  · cases hg.symm.trans hp
  · cases hp'.symm.trans hp
    obtain ⟨hrun, _, htrace⟩ := h 9
    rw [launch_of_ok hp, launch_of_ok hq] at hrun
    exact ⟨p, q, _, _, hp, hq, rfl, rfl, hrun, rfl, htrace⟩

end Machine

end Ippcode
