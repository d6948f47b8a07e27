import Ippcode.Proofs.Access
import Ippcode.Proofs.Edits

/-! # Laws of variables

Memory is a store of variables, each of which is a name in the frame of a tag. Whether a variable
can be reached is decided by its frame first and by its name then; what is stored in it is what is
loaded from it, and no other variable takes notice, whichever frames the two are in. Stores to
different variables can therefore be exchanged, and of two stores to one variable only the later
matters.
-/
namespace Ippcode

namespace Frame

variable {f g : Frame} {name other : String} {v x : Value} {e : Fault}

theorem declare_eq_error_iff :
    f.declare name = .error e ↔ name ∈ f.names ∧ e = .variableExists name := by
  unfold declare
  by_cases h : name ∈ f.names <;> simp [h, eq_comm]

theorem get_of_declare (h : f.declare name = .ok g) (other : String) :
    g.get other = if other = name then .ok .uninit else f.get other := by
  rw [get, get?_of_declare h]
  by_cases ho : other = name
  · rw [if_pos ho, if_pos ho]
  · rw [if_neg ho, if_neg ho, get]

theorem get_of_set_ne (h : f.set name v = .ok g) (hne : other ≠ name) :
    g.get other = f.get other := by
  unfold set at h
  split at h
  · cases h
    simp only [get, get?_assign, if_neg hne]
    cases f.get? other <;> rfl
  · cases h

theorem assign_of_not_mem (h : name ∉ f.names) : f.assign name v = f := by
  obtain ⟨entries, hnodup⟩ := f
  simp only [assign, mk.injEq]
  refine (List.map_congr_left fun e he => ?_).trans (List.map_id _)
  have hne : e.1 ≠ name := fun heq => h (List.mem_map.2 ⟨e, he, heq⟩)
  rw [if_neg hne]
  rfl

/-- Setting a variable that is not declared leaves the frame as it is. -/
theorem edited_set (f : Frame) (name : String) (v : Value) :
    f.edited (.set name v) = f.assign name v := by
  by_cases h : name ∈ f.names
  · simp [edited, edit, Edit.attempt, set, settled, h]
  · simp [edited, edit, Edit.attempt, set, settled, h, assign_of_not_mem h]

/-- Of two assignments to one variable the later matters. -/
theorem assign_assign (f : Frame) (name : String) (v x : Value) :
    (f.assign name v).assign name x = f.assign name x := by
  simp only [assign, mk.injEq, List.map_map]
  refine List.map_congr_left fun e _ => ?_
  by_cases h : e.1 = name <;> simp [h]

theorem assign_comm (f : Frame) (hne : name ≠ other) (v x : Value) :
    (f.assign name v).assign other x = (f.assign other x).assign name v := by
  simp only [assign, mk.injEq, List.map_map]
  refine List.map_congr_left fun e _ => ?_
  by_cases h : e.1 = name
  · simp [h, hne]
  · simp [h]

end Frame

namespace Memory

/-- How an access to a variable fails: its frame does not exist, or the frame refuses the name. -/
structure FailsFor (m : Memory) (v : VarRef) (refuses : Frame → Prop) {α : Type}
    (r : Except Fault α) : Prop where
  frame : (∃ f, r = .error f ∧ f.kind = .frameAccess) ↔ m.frameAt? (m.site v.frame) = none
  name : ∀ g, m.frameAt? (m.site v.frame) = some g →
    ((∃ f, r = .error f ∧ f.kind = .variableAccess) ↔ refuses g)
  kinds : ∀ f, r = .error f → f.kind ∈ FaultKind.access

/-- A memory in which a variable has another value, if it is declared. -/
def assign (m : Memory) (v : VarRef) (x : Value) : Memory :=
  m.mapFrame v.frame (·.assign v.name x)

variable {m m' : Memory} {v w : VarRef} {x y : Value}

/-- A change puts the changed frame in the place of the one before. -/
theorem mapFrame_of_update {tag : FrameTag} {change : Frame → Except Fault Frame}
    (h : m.update tag change = .ok m') :
    ∃ g g', m.frame tag = .ok g ∧ change g = .ok g' ∧ m' = m.mapFrame tag fun _ => g' := by
  obtain ⟨g, g', hchange, ⟨rfl, rfl, rfl⟩ | ⟨rfl, ht, rfl⟩ | ⟨rfl, rest, hl, rfl⟩⟩ :=
    cases_of_update h
  · exact ⟨_, g', rfl, hchange, rfl⟩
  · exact ⟨g, g', by rw [frame, ht], hchange, by rw [mapFrame, ht, Option.map_some]⟩
  · exact ⟨g, g', by rw [frame, hl], hchange, by rw [mapFrame, hl, List.modifyHead_cons]⟩

/-! ## Failing -/

theorem frameAt?_eq_none_iff {tag : FrameTag} :
    m.frameAt? (m.site tag) = none ↔ ∃ f, m.frame tag = .error f := by
  cases h : m.frame tag with
  | ok g => simp [frame_eq_ok_iff.1 h]
  | error f =>
    refine iff_of_true (Option.eq_none_iff_forall_ne_some.2 fun g hg => ?_) ⟨f, rfl⟩
    cases h.symm.trans (frame_eq_ok_iff.2 hg)

theorem failsFor_of_error_iff {α : Type} {r : Except Fault α} {refuses : Frame → Prop}
    {refusal : Fault} (hkind : refusal.kind = .variableAccess)
    (h : ∀ f, r = .error f ↔ m.frame v.frame = .error f ∨
      ∃ g, m.frame v.frame = .ok g ∧ refuses g ∧ f = refusal) :
    m.FailsFor v refuses r := by
  refine ⟨?_, ?_, ?_⟩
  · rw [frameAt?_eq_none_iff]
    constructor
    · rintro ⟨f, hf, hk⟩
      obtain hframe | ⟨g, -, -, rfl⟩ := (h f).1 hf
      · exact ⟨f, hframe⟩
      · cases hkind.symm.trans hk
    · rintro ⟨f, hframe⟩
      exact ⟨f, (h f).2 (.inl hframe), kind_of_frame hframe⟩
  · intro g hg
    have hframe := frame_eq_ok_iff.2 hg
    constructor
    · rintro ⟨f, hf, -⟩
      obtain herror | ⟨g', hg', hrefuses, -⟩ := (h f).1 hf
      · cases hframe.symm.trans herror
      · cases hframe.symm.trans hg'
        exact hrefuses
    · intro hrefuses
      exact ⟨refusal, (h _).2 (.inr ⟨g, hframe, hrefuses, rfl⟩), hkind⟩
  · intro f hf
    obtain hframe | ⟨g, -, -, rfl⟩ := (h f).1 hf
    · simp [kind_of_frame hframe, FaultKind.access]
    · simp [hkind, FaultKind.access]

theorem failsFor_load (m : Memory) (v : VarRef) : m.FailsFor v (v.name ∉ ·.names) (m.load v) :=
  failsFor_of_error_iff rfl fun _ => load_eq_error_iff.trans lacks_iff

theorem failsFor_store (m : Memory) (v : VarRef) (x : Value) :
    m.FailsFor v (v.name ∉ ·.names) (m.edit (.store v x)).2 :=
  failsFor_of_error_iff rfl fun _ => edit_eq_error_iff.trans (store_eq_error_iff.trans lacks_iff)

theorem failsFor_declare (m : Memory) (v : VarRef) :
    m.FailsFor v (v.name ∈ ·.names) (m.edit (.declare v)).2 := by
  have hkind : (Fault.variableExists v.name).kind = .variableAccess := rfl
  refine failsFor_of_error_iff hkind fun f => ?_
  rw [edit_eq_error_iff, Edit.attempt, declare, update_eq_error_iff]
  simp only [Frame.declare_eq_error_iff]

/-! ## Reading what was written -/

theorem load_of_update {tag : FrameTag} {change : Frame → Except Fault Frame}
    (h : m.update tag change = .ok m')
    (hw : w.frame = tag → ∀ g g', change g = .ok g' → g'.get w.name = g.get w.name) :
    m'.load w = m.load w := by
  obtain ⟨g, g', hg, hchange, rfl⟩ := mapFrame_of_update h
  rw [load, load, frame_mapFrame]
  by_cases htag : w.frame = tag
  · rw [htag, hg, Except.map, if_pos rfl]
    exact hw htag g g' hchange
  · simp only [if_neg htag]
    cases m.frame w.frame <;> rfl

theorem name_ne_of_ne (hne : w ≠ v) (hframe : w.frame = v.frame) : w.name ≠ v.name := by
  intro hname
  obtain ⟨frame, name⟩ := w
  obtain ⟨frame', name'⟩ := v
  cases hframe
  cases hname
  exact hne rfl

theorem load_of_store_ne (h : m.store v x = .ok m') (hne : w ≠ v) : m'.load w = m.load w :=
  load_of_update h fun hframe _ _ hset => Frame.get_of_set_ne hset (name_ne_of_ne hne hframe)

theorem load_of_declare (h : m.declare v = .ok m') : m'.load v = .ok .uninit := by
  obtain ⟨g, g', -, hdeclare, hframe⟩ := frame_of_update h
  have hget := Frame.get_of_declare hdeclare v.name
  rw [if_pos rfl] at hget
  rw [load, hframe]
  exact hget

theorem load_of_declare_ne (h : m.declare v = .ok m') (hne : w ≠ v) : m'.load w = m.load w := by
  refine load_of_update h fun hframe g g' hdeclare => ?_
  rw [Frame.get_of_declare hdeclare, if_neg (name_ne_of_ne hne hframe)]

/-! ## Stores in a row -/

/-- A store is an assignment, and leaves all as it is if there is nothing to assign to. -/
theorem edited_store (m : Memory) (v : VarRef) (x : Value) :
    m.edited (.store v x) = m.assign v x := by
  rw [edited, edit, fst_within, assign]
  exact congrArg _ (funext fun g => g.edited_set v.name x)

theorem assign_assign_self (m : Memory) (v : VarRef) (x y : Value) :
    (m.assign v x).assign v y = m.assign v y := by
  rw [assign, assign, mapFrame_mapFrame, assign]
  exact congrArg _ (funext fun g => g.assign_assign v.name x y)

theorem assign_comm (m : Memory) (hne : w ≠ v) (x y : Value) :
    (m.assign v x).assign w y = (m.assign w y).assign v x := by
  by_cases hframe : w.frame = v.frame
  · have hname := name_ne_of_ne hne hframe
    simp only [assign, hframe, mapFrame_mapFrame]
    exact congrArg _ (funext fun g => g.assign_comm hname.symm x y)
  · exact m.mapFrame_comm (fun h => hframe h.symm) _ _

/-- Whether a variable can be reached does not depend on what has been stored. -/
theorem lacks_assign_iff {f : Fault} : (m.assign v x).Lacks w f ↔ m.Lacks w f := by
  have hnames : ∀ g : Frame,
      (if w.frame = v.frame then g.assign v.name x else g).names = g.names := by
    intro g
    split
    · exact g.names_assign v.name x
    · rfl
  rw [lacks_iff, lacks_iff, assign, frame_mapFrame]
  cases m.frame w.frame <;> simp [Except.map, hnames]

theorem edit_store_of_assign (m : Memory) (v w : VarRef) (x y : Value) :
    ((m.assign v x).edit (.store w y)).2 = (m.edit (.store w y)).2 := by
  have herror : ∀ f, ((m.assign v x).edit (.store w y)).2 = .error f ↔
      (m.edit (.store w y)).2 = .error f := by
    intro f
    rw [edit_eq_error_iff, edit_eq_error_iff, Edit.attempt, Edit.attempt, store_eq_error_iff,
      store_eq_error_iff, lacks_assign_iff]
  cases hr : (m.edit (.store w y)).2 with
  | error f => exact (herror f).2 hr
  | ok u =>
    cases hr' : ((m.assign v x).edit (.store w y)).2 with
    | ok u' => rfl
    | error f =>
      rw [(herror f).1 hr'] at hr
      cases hr

/-- The laws of variables, in every memory. A tag denotes one frame, by whichever way it is reached.
An edit comes to what its attempt comes to, and one that fails changes nothing. Loads, stores and
declarations fail for want of the frame, and else for the name: if it is not declared, or if it is
already. What was stored is loaded, a declared variable is unassigned, and all other loads are as
they were. Stores to two variables can be exchanged, and neither makes a difference to how the other
goes; of two stores to one variable the later matters. -/
theorem variables_obey_store_laws (m : Memory) (v w : VarRef) (x y : Value) :
    (∀ tag, m.within tag (fun g => (g, .ok g)) = (m, m.frame tag)) ∧
      (∀ e, m.edit e = settled m (e.attempt m)) ∧
      (∀ e f, (m.edit e).2 = .error f → m.edited e = m) ∧
      m.FailsFor v (v.name ∉ ·.names) (m.load v) ∧
      m.FailsFor v (v.name ∉ ·.names) (m.edit (.store v x)).2 ∧
      m.FailsFor v (v.name ∈ ·.names) (m.edit (.declare v)).2 ∧
      ((m.edit (.store v x)).2 = .ok () →
        (m.edited (.store v x)).load v = .ok x ∧
          (w ≠ v → (m.edited (.store v x)).load w = m.load w)) ∧
      ((m.edit (.declare v)).2 = .ok () →
        (m.edited (.declare v)).load v = .ok .uninit ∧
          (w ≠ v → (m.edited (.declare v)).load w = m.load w)) ∧
      (w ≠ v →
        m.editedBy [.store v x, .store w y] = m.editedBy [.store w y, .store v x] ∧
          ((m.edited (.store v x)).edit (.store w y)).2 = (m.edit (.store w y)).2) ∧
      m.editedBy [.store v x, .store v y] = m.edited (.store v y) := by
  refine ⟨m.within_read, m.edit_eq, fun e f => edited_of_fault, m.failsFor_load v,
    m.failsFor_store v x, m.failsFor_declare v, ?_, ?_, ?_, ?_⟩
  · intro h
    have hstore : m.store v x = .ok (m.edited (.store v x)) := attempt_of_edit h
    exact ⟨load_of_store hstore, load_of_store_ne hstore⟩
  · intro h
    have hdeclare : m.declare v = .ok (m.edited (.declare v)) := attempt_of_edit h
    exact ⟨load_of_declare hdeclare, load_of_declare_ne hdeclare⟩
  · intro hne
    simp only [editedBy_cons, editedBy_nil, edited_store]
    exact ⟨m.assign_comm hne x y, m.edit_store_of_assign v w x y⟩
  · simp only [editedBy_cons, editedBy_nil, edited_store]
    exact m.assign_assign_self v x y

/-- One name is declared in all three frames, and a second one is not in the temporary frame. -/
theorem variables_obey_store_laws_shared_name :
    let m := Memory.empty.editedBy [.declare ⟨.gf, "x"⟩, .create, .declare ⟨.tf, "x"⟩, .push,
      .create, .declare ⟨.tf, "x"⟩, .store ⟨.tf, "x"⟩ (.int 1)]
    let v : VarRef := ⟨.lf, "x"⟩
    let w : VarRef := ⟨.tf, "x"⟩
    let u : VarRef := ⟨.tf, "y"⟩
    (m.edited (.store v (.int 7))).load v = .ok (.int 7) ∧
      (m.edited (.store v (.int 7))).load w = .ok (.int 1) ∧
      m.editedBy [.store v (.int 7), .store w .nil] =
        m.editedBy [.store w .nil, .store v (.int 7)] ∧
      (∃ f, (m.edit (.store u .nil)).2 = .error f ∧ f.kind = .variableAccess) ∧
      (m.edited (.declare u)).load u = .ok .uninit ∧
      (m.edited (.declare u)).load w = .ok (.int 1) := by
  intro m v w u
  have hne : w ≠ v := by decide
  have hload : m.load w = .ok (.int 1) := by decide
  obtain ⟨-, -, -, -, -, -, hstored, -, hcomm, -⟩ :=
    variables_obey_store_laws m v w (.int 7) .nil
  obtain ⟨hv, hw⟩ := hstored (by decide)
  obtain ⟨-, -, -, -, hfails, -, -, hdeclared, -⟩ :=
    variables_obey_store_laws m u w .nil .nil
  obtain ⟨hu, hw'⟩ := hdeclared (by decide)
  obtain ⟨g, hg⟩ : ∃ g, m.frameAt? (m.site u.frame) = some g ∧ u.name ∉ g.names :=
    ⟨⟨[("x", .int 1)], by decide⟩, by decide, by decide⟩
  exact ⟨hv, (hw hne).trans hload, (hcomm hne).1, (hfails.name g hg.1).2 hg.2, hu,
    (hw' (by decide)).trans hload⟩

end Memory

end Ippcode
