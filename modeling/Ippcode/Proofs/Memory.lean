import Ippcode.Memory
import Ippcode.Proofs.Result

/-! # Changing memory

All frames of a memory, the hidden ones too, are at sites. A change of memory goes through the frame
that a tag denotes: it faults if there is no such frame or if the change faults on it, and otherwise
the frame is replaced and those of all other sites stay.
-/
namespace Ippcode

/-- Where a frame is. Local frames are counted from the lowest one, so that pushing a frame moves
no other. -/
inductive Site where
  | global
  | temporary
  | stacked (height : Nat)
  deriving DecidableEq, Repr

theorem Frame.get_of_set {f g : Frame} {name : String} {v : Value} (h : f.set name v = .ok g) :
    g.get name = .ok v := by
  unfold Frame.set at h
  split at h
  next hmem =>
    cases h
    have hsome : (f.get? name).isSome := by
      rw [← Option.ne_none_iff_isSome, ne_eq, Frame.get?_eq_none_iff]
      exact fun hn => hn hmem
    obtain ⟨old, hold⟩ := Option.isSome_iff_exists.1 hsome
    simp [Frame.get, hold]
  next => cases h

namespace Memory

def frameAt? (mem : Memory) : Site → Option Frame
  | .global => some mem.global
  | .temporary => mem.temporary
  | .stacked height => mem.locals.reverse[height]?

def site (mem : Memory) : FrameTag → Site
  | .gf => .global
  | .tf => .temporary
  | .lf => .stacked (mem.depth - 1)

variable {mem mem' : Memory} {tag : FrameTag} {change : Frame → Except Fault Frame} {f : Fault}

theorem update_eq_error_iff : mem.update tag change = .error f ↔
    mem.frame tag = .error f ∨ ∃ g, mem.frame tag = .ok g ∧ change g = .error f := by
  cases tag with
  | gf => simp [update, frame]
  | tf => cases h : mem.temporary <;> simp [update, frame, h]
  | lf => cases h : mem.locals <;> simp [update, frame, h]

theorem getElem?_reverse_cons (g : Frame) (rest : List Frame) (height : Nat) :
    (g :: rest).reverse[height]? =
      if height = rest.length then some g else rest.reverse[height]? := by
  rw [List.reverse_cons, List.getElem?_append, List.length_reverse]
  by_cases hlt : height < rest.length
  · rw [if_pos hlt, if_neg (by omega)]
  · rw [if_neg hlt]
    by_cases heq : height = rest.length
    · simp [heq]
    · rw [if_neg heq, List.getElem?_eq_none (by simp; omega),
        List.getElem?_eq_none (by simp; omega)]

/-- A tag denotes the frame at its site. -/
theorem frame_eq_ok_iff {g : Frame} :
    mem.frame tag = .ok g ↔ mem.frameAt? (mem.site tag) = some g := by
  cases tag with
  | gf => simp [frame, frameAt?, site]
  | tf => cases h : mem.temporary <;> simp [frame, frameAt?, site, h]
  | lf => cases h : mem.locals <;> simp [frame, frameAt?, site, depth, h]

/-- The three changes that there are. -/
theorem cases_of_update (h : mem.update tag change = .ok mem') : ∃ g g', change g = .ok g' ∧
    (tag = .gf ∧ mem.global = g ∧ mem' = { mem with global := g' } ∨
      tag = .tf ∧ mem.temporary = some g ∧ mem' = { mem with temporary := some g' } ∨
      tag = .lf ∧ ∃ rest, mem.locals = g :: rest ∧ mem' = { mem with locals := g' :: rest }) := by
  cases tag with
  | gf =>
    obtain ⟨g', hg, rfl⟩ := Except.map_eq_ok.1 h
    exact ⟨_, g', hg, .inl ⟨rfl, rfl, rfl⟩⟩
  | tf =>
    cases ht : mem.temporary with
    | none => simp [update, ht] at h
    | some g =>
      simp only [update, ht] at h
      obtain ⟨g', hg, rfl⟩ := Except.map_eq_ok.1 h
      exact ⟨g, g', hg, .inr (.inl ⟨rfl, rfl, rfl⟩)⟩
  | lf =>
    cases hl : mem.locals with
    | nil => simp [update, hl] at h
    | cons g rest =>
      simp only [update, hl] at h
      obtain ⟨g', hg, rfl⟩ := Except.map_eq_ok.1 h
      exact ⟨g, g', hg, .inr (.inr ⟨rfl, rest, rfl, rfl⟩)⟩

/-- A change replaces the frame at the site of its tag. -/
theorem frameAt?_of_update (h : mem.update tag change = .ok mem') :
    ∃ g g', mem.frameAt? (mem.site tag) = some g ∧ change g = .ok g' ∧
      ∀ s, mem'.frameAt? s = if s = mem.site tag then some g' else mem.frameAt? s := by
  obtain ⟨g, g', hg, ⟨rfl, rfl, rfl⟩ | ⟨rfl, ht, rfl⟩ | ⟨rfl, rest, hl, rfl⟩⟩ := cases_of_update h
  · refine ⟨_, g', rfl, hg, ?_⟩
    intro s
    cases s <;> rfl
  · refine ⟨g, g', ht, hg, ?_⟩
    intro s
    cases s <;> rfl
  · have hsite : mem.site .lf = .stacked rest.length := by simp [site, depth, hl]
    refine ⟨g, g', by simp [hsite, frameAt?, hl], hg, ?_⟩
    intro s
    rw [hsite]
    cases s with
    | global | temporary => rfl
    | stacked height =>
      simp only [frameAt?, hl, getElem?_reverse_cons, Site.stacked.injEq]
      split <;> rfl

/-- What a tag denotes after a change is the changed frame. -/
theorem frame_of_update (h : mem.update tag change = .ok mem') :
    ∃ g g', mem.frame tag = .ok g ∧ change g = .ok g' ∧ mem'.frame tag = .ok g' := by
  obtain ⟨g, g', hg, ⟨rfl, rfl, rfl⟩ | ⟨rfl, ht, rfl⟩ | ⟨rfl, rest, hl, rfl⟩⟩ := cases_of_update h
  · exact ⟨_, g', rfl, hg, rfl⟩
  · exact ⟨g, g', by rw [frame, ht], hg, rfl⟩
  · exact ⟨g, g', by rw [frame, hl], hg, rfl⟩

/-- A variable holds what was stored in it. -/
theorem load_of_store {v : VarRef} {x : Value} (h : mem.store v x = .ok mem') :
    mem'.load v = .ok x := by
  obtain ⟨g, g', _, hset, hframe⟩ := frame_of_update h
  have hget : g'.get v.name = .ok x := Frame.get_of_set hset
  rw [load, hframe]
  exact hget

theorem shape_of_update (h : mem.update tag change = .ok mem') :
    mem'.temporary.isSome = mem.temporary.isSome ∧ mem'.depth = mem.depth := by
  obtain ⟨g, g', _, ⟨_, _, rfl⟩ | ⟨_, ht, rfl⟩ | ⟨_, rest, hl, rfl⟩⟩ := cases_of_update h
  · exact ⟨rfl, rfl⟩
  · exact ⟨by rw [ht]; rfl, rfl⟩
  · exact ⟨rfl, by simp [depth, hl]⟩

theorem lt_depth_of_frameAt? {height : Nat} {g : Frame}
    (h : mem.frameAt? (.stacked height) = some g) : height < mem.depth := by
  simpa [depth] using (List.getElem?_eq_some_iff.1 h).1

theorem frameAt?_of_pushTemporary (h : mem.pushTemporary = .ok mem') :
    mem'.global = mem.global ∧ mem'.temporary = none ∧ mem.temporary.isSome ∧
      ∀ height, mem'.frameAt? (.stacked height) =
        if height = mem.depth then mem.temporary else mem.frameAt? (.stacked height) := by
  unfold pushTemporary at h
  cases ht : mem.temporary with
  | none => simp [ht] at h
  | some f =>
    simp only [ht] at h
    cases h
    exact ⟨rfl, rfl, rfl, getElem?_reverse_cons f mem.locals⟩

theorem frameAt?_of_popLocal (h : mem.popLocal = .ok mem') :
    ∃ top, mem.depth = top + 1 ∧ mem'.global = mem.global ∧
      mem'.temporary = mem.frameAt? (.stacked top) ∧ mem'.temporary.isSome ∧
      ∀ height, mem'.frameAt? (.stacked height) =
        if height = top then none else mem.frameAt? (.stacked height) := by
  unfold popLocal at h
  cases hl : mem.locals with
  | nil => simp [hl] at h
  | cons f rest =>
    simp only [hl] at h
    cases h
    refine ⟨rest.length, by simp [depth, hl], rfl, by simp [frameAt?, hl], rfl, ?_⟩
    intro height
    simp only [frameAt?, hl, getElem?_reverse_cons]
    by_cases htop : height = rest.length
    · simp [htop]
    · rw [if_neg htop, if_neg htop]

end Memory

end Ippcode
