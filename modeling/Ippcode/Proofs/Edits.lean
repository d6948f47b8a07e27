import Ippcode.Proofs.Memory

/-! # Edits in place

Frames and memory are edited one edit after the other. An edit of memory is carried out step by step
on what there is, and each step leaves its trace: the temporary frame is taken away before it is
known to exist, and a frame is put back after it has been used, whatever came of it. Yet an edit
leaves nothing else behind than its attempt as a whole does, and nothing at all if it fails.
-/
namespace Ippcode

/-- What an attempt leaves behind and how it went; if it fails, all is as it was. -/
def settled {α : Type} (a : α) : Except Fault α → α × Except Fault Unit
  | .ok b => (b, .ok ())
  | .error f => (a, .error f)

namespace Frame

inductive Edit where
  | declare (name : String)
  | set (name : String) (v : Value)
  deriving DecidableEq, Repr

namespace Edit

def name : Edit → String
  | .declare name | .set name _ => name

def attempt (f : Frame) : Edit → Except Fault Frame
  | .declare name => f.declare name
  | .set name v => f.set name v

end Edit

/-- The frame after an edit, and how the edit went. A frame is looked into before it is changed. -/
def edit (f : Frame) (e : Edit) : Frame × Except Fault Unit := settled f (e.attempt f)

def edited (f : Frame) (e : Edit) : Frame := (f.edit e).1

def editedBy (f : Frame) (es : List Edit) : Frame := es.foldl edited f

@[simp] theorem editedBy_cons (f : Frame) (e : Edit) (es : List Edit) :
    f.editedBy (e :: es) = (f.edited e).editedBy es := rfl

@[simp] theorem editedBy_append (f : Frame) (es later : List Edit) :
    f.editedBy (es ++ later) = (f.editedBy es).editedBy later := List.foldl_append

theorem edited_of_attempt {f g : Frame} {e : Edit} (h : e.attempt f = .ok g) : f.edited e = g := by
  rw [edited, edit, h]
  rfl

theorem edited_of_fault {f : Frame} {e : Edit} {x : Fault} (h : e.attempt f = .error x) :
    f.edited e = f := by
  rw [edited, edit, h]
  rfl

end Frame

namespace Memory

inductive Edit where
  | create
  | push
  | pop
  | declare (v : VarRef)
  | store (v : VarRef) (x : Value)
  deriving DecidableEq, Repr

def Edit.attempt (m : Memory) : Edit → Except Fault Memory
  | .create => .ok m.createTemporary
  | .push => m.pushTemporary
  | .pop => m.popLocal
  | .declare v => m.declare v
  | .store v x => m.store v x

/-- Uses the frame of a tag and puts back what the use has left of it. -/
def within {α : Type} (m : Memory) (tag : FrameTag) (use : Frame → Frame × Except Fault α) :
    Memory × Except Fault α :=
  match tag with
  | .gf => ({ m with global := (use m.global).1 }, (use m.global).2)
  | .tf =>
    match m.temporary with
    | some f => ({ m with temporary := some (use f).1 }, (use f).2)
    | none => (m, .error .noTemporaryFrame)
  | .lf =>
    match m.locals with
    | f :: rest => ({ m with locals := (use f).1 :: rest }, (use f).2)
    | [] => (m, .error .noLocalFrame)

/-- The memory with another frame for a tag, if there is one. -/
def mapFrame (m : Memory) (tag : FrameTag) (image : Frame → Frame) : Memory :=
  match tag with
  | .gf => { m with global := image m.global }
  | .tf => { m with temporary := m.temporary.map image }
  | .lf => { m with locals := m.locals.modifyHead image }

/-- The memory after an edit, which is carried out step by step, and how the edit went. -/
def edit (m : Memory) : Edit → Memory × Except Fault Unit
  | .create => ({ m with temporary := some .empty }, .ok ())
  | .push =>
    let taken := m.temporary
    let m := { m with temporary := none }
    match taken with
    | some f => ({ m with locals := f :: m.locals }, .ok ())
    | none => (m, .error .noTemporaryFrame)
  | .pop =>
    let taken := m.locals.head?
    let m := { m with locals := m.locals.tail }
    match taken with
    | some f => ({ m with temporary := some f }, .ok ())
    | none => (m, .error .noLocalFrame)
  | .declare v => m.within v.frame (·.edit (.declare v.name))
  | .store v x => m.within v.frame (·.edit (.set v.name x))

def edited (m : Memory) (e : Edit) : Memory := (m.edit e).1

def editedBy (m : Memory) (es : List Edit) : Memory := es.foldl edited m

variable {m m' : Memory} {e : Edit} {f : Fault}

@[simp] theorem editedBy_nil (m : Memory) : m.editedBy [] = m := rfl

@[simp] theorem editedBy_cons (m : Memory) (e : Edit) (es : List Edit) :
    m.editedBy (e :: es) = (m.edited e).editedBy es := rfl

/-! ## One frame for another -/

theorem mapFrame_mapFrame (m : Memory) (tag : FrameTag) (image image' : Frame → Frame) :
    (m.mapFrame tag image).mapFrame tag image' = m.mapFrame tag (image' ∘ image) := by
  cases tag <;> simp [mapFrame]

theorem mapFrame_comm (m : Memory) {tag other : FrameTag} (hne : tag ≠ other)
    (image image' : Frame → Frame) :
    (m.mapFrame tag image).mapFrame other image' =
      (m.mapFrame other image').mapFrame tag image := by
  cases tag with
  | gf =>
    cases other with
    | gf => exact absurd rfl hne
    | tf | lf => rfl
  | tf =>
    cases other with
    | tf => exact absurd rfl hne
    | gf | lf => rfl
  | lf =>
    cases other with
    | lf => exact absurd rfl hne
    | gf | tf => rfl

theorem frame_mapFrame (m : Memory) (tag other : FrameTag) (image : Frame → Frame) :
    (m.mapFrame tag image).frame other =
      (m.frame other).map fun g => if other = tag then image g else g := by
  obtain ⟨global, temporary, locals⟩ := m
  cases other with
  | gf => cases tag <;> rfl
  | tf => cases temporary <;> cases tag <;> rfl
  | lf => cases locals <;> cases tag <;> rfl

theorem frameAt?_mapFrame (m : Memory) (tag : FrameTag) (s : Site) (image : Frame → Frame) :
    (m.mapFrame tag image).frameAt? s =
      (m.frameAt? s).map fun g => if m.site tag = s then image g else g := by
  cases tag with
  | gf => cases s <;> simp [mapFrame, frameAt?, site]
  | tf => cases s <;> simp [mapFrame, frameAt?, site]
  | lf =>
    cases s with
    | global | temporary => simp [mapFrame, frameAt?, site]
    | stacked height =>
      obtain ⟨global, temporary, locals⟩ := m
      cases locals with
      | nil => rfl
      | cons f rest =>
        simp only [mapFrame, frameAt?, site, depth, List.modifyHead_cons, getElem?_reverse_cons]
        by_cases h : height = rest.length
        · simp [h]
        · simp [h, Ne.symm h]

theorem fst_within {α : Type} (m : Memory) (tag : FrameTag)
    (use : Frame → Frame × Except Fault α) :
    (m.within tag use).1 = m.mapFrame tag fun g => (use g).1 := by
  obtain ⟨global, temporary, locals⟩ := m
  cases tag with
  | gf => rfl
  | tf => cases temporary <;> rfl
  | lf => cases locals <;> rfl

/-! ## Editing -/

/-- Both ways to the frame of a tag lead to the same one, or fail alike. -/
theorem within_read (m : Memory) (tag : FrameTag) :
    m.within tag (fun f => (f, .ok f)) = (m, m.frame tag) := by
  obtain ⟨global, temporary, locals⟩ := m
  cases tag with
  | gf => rfl
  | tf => cases temporary <;> rfl
  | lf => cases locals <;> rfl

theorem within_settled (m : Memory) (tag : FrameTag) (change : Frame → Except Fault Frame) :
    m.within tag (fun f => settled f (change f)) = settled m (m.update tag change) := by
  obtain ⟨global, temporary, locals⟩ := m
  cases tag with
  | gf => cases h : change global <;> simp [within, update, settled, h, Except.map]
  | tf =>
    cases temporary with
    | none => rfl
    | some f => cases h : change f <;> simp [within, update, settled, h, Except.map]
  | lf =>
    cases locals with
    | nil => rfl
    | cons f rest => cases h : change f <;> simp [within, update, settled, h, Except.map]

/-- An edit leaves what its attempt leaves. -/
theorem edit_eq (m : Memory) (e : Edit) : m.edit e = settled m (e.attempt m) := by
  cases e with
  | create => rfl
  | push =>
    obtain ⟨global, temporary, locals⟩ := m
    cases temporary <;> rfl
  | pop =>
    obtain ⟨global, temporary, locals⟩ := m
    cases locals <;> rfl
  | declare v => exact m.within_settled v.frame (·.declare v.name)
  | store v x => exact m.within_settled v.frame (·.set v.name x)

theorem edit_of_attempt (h : e.attempt m = .ok m') : m.edit e = (m', .ok ()) := by
  rw [edit_eq, h]
  rfl

theorem edit_of_fault (h : e.attempt m = .error f) : m.edit e = (m, .error f) := by
  rw [edit_eq, h]
  rfl

theorem attempt_of_edit (h : (m.edit e).2 = .ok ()) : e.attempt m = .ok (m.edited e) := by
  cases ha : e.attempt m with
  | ok m' => rw [edited, edit_of_attempt ha]
  | error f =>
    rw [edit_of_fault ha] at h
    cases h

theorem edit_eq_error_iff : (m.edit e).2 = .error f ↔ e.attempt m = .error f := by
  cases ha : e.attempt m with
  | ok m' => simp [edit_of_attempt ha]
  | error g => simp [edit_of_fault ha]

/-- An edit that fails changes nothing. -/
theorem edited_of_fault (h : (m.edit e).2 = .error f) : m.edited e = m := by
  rw [edited, edit_of_fault (edit_eq_error_iff.1 h)]

end Memory

end Ippcode
