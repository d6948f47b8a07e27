import Ippcode.Proofs.Edits
import Ippcode.Proofs.FaultKinds

/-! # The life of frames

What becomes of frames in a history of edits. The temporary frame and the depth of the stack are
told from the edits that succeeded. Every frame is followed from site to site, and what is declared
and stored in it on its way is kept in a list, so that a frame is known to be the same one wherever
it is found. The global frame stays where it is, and only a temporary frame is ever given up: when
another one is created, or when a local frame takes its place.
-/
namespace Ippcode.Memory

namespace Edit

/-- Whether an edit makes or moves a frame. -/
def movesFrame : Edit → Bool
  | .create | .push | .pop => true
  | .declare _ | .store .. => false

/-- Where an edit takes the frame of a site; nowhere if the frame is given up. -/
def carries (m : Memory) : Edit → Site → Option Site
  | .create, .temporary => none
  | .push, .temporary => some (.stacked m.depth)
  | .pop, .temporary => if m.depth = 0 then some .temporary else none
  | .pop, .stacked height => some (if height + 1 = m.depth then .temporary else .stacked height)
  | _, s => some s

/-- Where an edit has taken the frame of a site from. -/
def origin (m : Memory) : Edit → Site → Site
  | .push, .stacked height => if height = m.depth then .temporary else .stacked height
  | .pop, .temporary => if m.depth = 0 then .temporary else .stacked (m.depth - 1)
  | _, s => s

/-- What an edit does to the frame of a site. -/
def onFrame (m : Memory) : Edit → Site → List Frame.Edit
  | .declare v, s => if m.site v.frame = s then [.declare v.name] else []
  | .store v x, s => if m.site v.frame = s then [.set v.name x] else []
  | _, _ => []

/-- What an edit does to the global frame, in whatever memory. -/
def onGlobal? : Edit → Option Frame.Edit
  | .declare ⟨.gf, name⟩ => some (.declare name)
  | .store ⟨.gf, name⟩ x => some (.set name x)
  | _ => none

end Edit

/-- The edits of a history that do not fail. -/
def succeeded (m : Memory) : List Edit → List Edit
  | [] => []
  | e :: es =>
    match (m.edit e).2 with
    | .ok _ => e :: (m.edited e).succeeded es
    | .error _ => (m.edited e).succeeded es

/-- Where the frame of a site is after edits, unless it has been given up, and what has been done to
it. -/
def follow (m : Memory) : List Edit → Site → Option (Site × List Frame.Edit)
  | [], s => some (s, [])
  | e :: es, s =>
    (e.carries m s).bind fun t =>
      ((m.edited e).follow es t).map fun (u, changes) => (u, e.onFrame m s ++ changes)

/-- What an edit can do, and how it goes. -/
inductive Does (m : Memory) : Edit → Memory → Except Fault Unit → Prop
  | created : Does m .create { m with temporary := some .empty } (.ok ())
  | pushed {g : Frame} (h : m.temporary = some g) :
    Does m .push { m with temporary := none, locals := g :: m.locals } (.ok ())
  | notPushed (h : m.temporary = none) : Does m .push m (.error .noTemporaryFrame)
  | popped {g : Frame} {rest : List Frame} (h : m.locals = g :: rest) :
    Does m .pop { m with temporary := some g, locals := rest } (.ok ())
  | notPopped (h : m.locals = []) : Does m .pop m (.error .noLocalFrame)
  | changed {e : Edit} {tag : FrameTag} {c : Frame.Edit} {r : Except Fault Unit}
    (h : e.movesFrame = false) (hc : ∀ s, e.onFrame m s = if m.site tag = s then [c] else []) :
    Does m e (m.mapFrame tag (·.edited c)) r

/-- What becomes of the frame of a site: it is found where it is followed to, with what was done to
it on its way; or it was the temporary frame when another one was created or popped. -/
inductive Fate (m : Memory) (es : List Edit) (s : Site) (g : Frame) : Prop
  | kept {t : Site} {changes : List Frame.Edit} (h : m.follow es s = some (t, changes))
    (hg : (m.editedBy es).frameAt? t = some (g.editedBy changes)) : Fate m es s g
  | givenUp {pre post : List Edit} {e : Edit} {changes : List Frame.Edit}
    (split : es = pre ++ e :: post) (h : m.follow pre s = some (.temporary, changes))
    (he : e = .create ∨ e = .pop ∧ ((m.editedBy pre).edit .pop).2 = .ok ()) : Fate m es s g

variable {m : Memory} {e : Edit} {es : List Edit} {s t u : Site} {f : Fault} {g : Frame}

/-! ## One edit -/

theorem edit_push (h : m.temporary = some g) :
    m.edit .push = ({ m with temporary := none, locals := g :: m.locals }, .ok ()) :=
  edit_of_attempt (by simp only [Edit.attempt, pushTemporary, h])

theorem edit_push_of_none (h : m.temporary = none) : m.edit .push = (m, .error .noTemporaryFrame) :=
  edit_of_fault (by simp only [Edit.attempt, pushTemporary, h])

theorem edit_pop {rest : List Frame} (h : m.locals = g :: rest) :
    m.edit .pop = ({ m with temporary := some g, locals := rest }, .ok ()) :=
  edit_of_attempt (by simp only [Edit.attempt, popLocal, h])

theorem edit_pop_of_nil (h : m.locals = []) : m.edit .pop = (m, .error .noLocalFrame) :=
  edit_of_fault (by simp only [Edit.attempt, popLocal, h])

theorem does_edit (m : Memory) (e : Edit) : Does m e (m.edited e) (m.edit e).2 := by
  cases e with
  | create => exact .created
  | push =>
    cases h : m.temporary with
    | none =>
      rw [edited, edit_push_of_none h]
      exact .notPushed h
    | some g =>
      rw [edited, edit_push h]
      exact .pushed h
  | pop =>
    cases h : m.locals with
    | nil =>
      rw [edited, edit_pop_of_nil h]
      exact .notPopped h
    | cons g rest =>
      rw [edited, edit_pop h]
      exact .popped h
  | declare v | store v x =>
    rw [edited, edit, fst_within]
    exact .changed rfl fun s => rfl

theorem shape_mapFrame (m : Memory) (tag : FrameTag) (image : Frame → Frame) :
    (m.mapFrame tag image).temporary.isSome = m.temporary.isSome ∧
      (m.mapFrame tag image).depth = m.depth := by
  cases tag <;> simp [mapFrame, depth]

/-- A push undone by a pop leaves all as it was. -/
theorem edit_pop_of_push (h : (m.edit .push).2 = .ok ()) :
    (m.edited .push).edit .pop = (m, .ok ()) := by
  obtain ⟨global, temporary, locals⟩ := m
  cases temporary with
  | none => cases h
  | some g => rfl

/-- A pop undone by a push brings back the local frames but not the temporary one. -/
theorem edit_push_of_pop (h : (m.edit .pop).2 = .ok ()) :
    (m.edited .pop).edit .push = ({ m with temporary := none }, .ok ()) := by
  obtain ⟨global, temporary, locals⟩ := m
  cases locals with
  | nil => cases h
  | cons g rest => rfl

theorem push_fails_iff : (∃ f, (m.edit .push).2 = .error f) ↔ m.temporary = none := by
  cases h : m.temporary with
  | none => simp [edit_push_of_none h]
  | some g => simp [edit_push h]

theorem pop_fails_iff : (∃ f, (m.edit .pop).2 = .error f) ↔ m.depth = 0 := by
  rw [depth, List.length_eq_zero_iff]
  cases h : m.locals with
  | nil => simp [edit_pop_of_nil h]
  | cons g rest => simp [edit_pop h]

/-! ## Histories -/

theorem isSome_temporary_editedBy (m : Memory) (es : List Edit) :
    (m.editedBy es).temporary.isSome =
      (((m.succeeded es).filter Edit.movesFrame).getLast?.map (· != .push)).getD
        m.temporary.isSome := by
  induction es generalizing m with
  | nil => rfl
  | cons e es ih =>
    have hdoes := does_edit m e
    rw [editedBy_cons, ih, succeeded]
    generalize m.edited e = m', (m.edit e).2 = r at hdoes
    cases hdoes with
    | created | pushed | popped =>
      simp only [List.filter_cons, Edit.movesFrame, if_true, List.getLast?_cons]
      generalize List.getLast? _ = last
      cases last <;> rfl
    | notPushed | notPopped => rfl
    | changed h =>
      rw [(m.shape_mapFrame _ _).1]
      cases r <;> simp [h]

/-- From scratch, what there is of a temporary frame is told from the last successful edit that
makes or moves a frame. -/
theorem temporary_iff_getLast? (history : List Edit) :
    (empty.editedBy history).temporary.isSome ↔
      ∃ e ∈ [Edit.create, .pop],
        ((empty.succeeded history).filter Edit.movesFrame).getLast? = some e := by
  rw [isSome_temporary_editedBy]
  cases h : ((empty.succeeded history).filter Edit.movesFrame).getLast? with
  | none => simp [empty]
  | some last =>
    have hmoves : last.movesFrame := (List.mem_filter.1 (List.mem_of_getLast? h)).2
    cases last with
    | create | push | pop => simp
    | declare | store => cases hmoves

theorem depth_editedBy (m : Memory) (es : List Edit) :
    (m.editedBy es).depth + (m.succeeded es).count .pop =
      m.depth + (m.succeeded es).count .push := by
  induction es generalizing m with
  | nil => rfl
  | cons e es ih =>
    have hdoes := does_edit m e
    have hrest := ih (m.edited e)
    rw [editedBy_cons, succeeded]
    generalize m.edited e = m', (m.edit e).2 = r at hdoes hrest
    cases hdoes with
    | created =>
      rw [List.count_cons_of_ne (by simp), List.count_cons_of_ne (by simp)]
      exact hrest
    | pushed h =>
      rw [List.count_cons_self, List.count_cons_of_ne (by simp)]
      simp only [depth, List.length_cons] at hrest ⊢
      omega
    | popped h =>
      rw [List.count_cons_self, List.count_cons_of_ne (by simp)]
      simp only [depth, h, List.length_cons] at hrest ⊢
      omega
    | notPushed | notPopped => exact hrest
    | changed h =>
      have hne : e ≠ .pop ∧ e ≠ .push := by
        constructor <;> rintro rfl <;> cases h
      rw [(m.shape_mapFrame _ _).2] at hrest
      cases r with
      | ok =>
        rw [List.count_cons_of_ne hne.1, List.count_cons_of_ne hne.2]
        exact hrest
      | error => exact hrest

/-! ## Frames on their way -/

theorem carries_eq_some (h : e.movesFrame = false) (s : Site) : e.carries m s = some s := by
  cases e with
  | create | push | pop => cases h
  | declare | store => rfl

/-- A frame that is not given up is found where the edit takes it, as the edit leaves it. -/
theorem frameAt?_of_carries (hg : m.frameAt? s = some g) (ht : e.carries m s = some t) :
    (m.edited e).frameAt? t = some (g.editedBy (e.onFrame m s)) := by
  have hdoes := does_edit m e
  generalize m.edited e = m', (m.edit e).2 = r at hdoes
  cases hdoes with
  | created =>
    cases s with
    | temporary => cases ht
    | global | stacked =>
      cases ht
      exact hg
  | pushed h =>
    cases s with
    | global =>
      cases ht
      exact hg
    | temporary =>
      cases ht
      simp only [frameAt?, getElem?_reverse_cons, depth, if_true]
      exact h.symm.trans hg
    | stacked height =>
      cases ht
      have hlt : height < m.locals.length := lt_depth_of_frameAt? hg
      simp only [frameAt?, getElem?_reverse_cons, Nat.ne_of_lt hlt, if_false]
      exact hg
  | notPushed h =>
    cases s with
    | temporary => cases h.symm.trans hg
    | global | stacked =>
      cases ht
      exact hg
  | @popped top rest h =>
    have hdepth : m.depth = rest.length + 1 := by rw [depth, h, List.length_cons]
    cases s with
    | global =>
      cases ht
      exact hg
    | temporary => simp [Edit.carries, hdepth] at ht
    | stacked height =>
      simp only [frameAt?, h, getElem?_reverse_cons] at hg
      simp only [Edit.carries, hdepth, Nat.add_right_cancel_iff, Option.some.injEq] at ht
      subst ht
      by_cases htop : height = rest.length
      · rw [if_pos htop] at hg ⊢
        exact hg
      · rw [if_neg htop] at hg ⊢
        exact hg
  | notPopped h =>
    have hdepth : m.depth = 0 := by rw [depth, h, List.length_nil]
    cases s with
    | global =>
      cases ht
      exact hg
    | temporary =>
      simp only [Edit.carries, hdepth, if_true, Option.some.injEq] at ht
      subst ht
      exact hg
    | stacked height =>
      have hlt := lt_depth_of_frameAt? hg
      omega
  | @changed _ tag c _ h hc =>
    rw [carries_eq_some h] at ht
    cases ht
    rw [frameAt?_mapFrame, hg, hc, Option.map_some]
    split <;> rfl

/-- The one frame that an edit gives up. -/
theorem given_up_of_carries (hs : e.carries m s = none) :
    s = .temporary ∧ (e = .create ∨ e = .pop ∧ (m.edit .pop).2 = .ok ()) := by
  cases e with
  | create =>
    cases s with
    | temporary => exact ⟨rfl, .inl rfl⟩
    | global | stacked => cases hs
  | push => cases s <;> cases hs
  | pop =>
    cases s with
    | temporary =>
      refine ⟨rfl, .inr ⟨rfl, ?_⟩⟩
      cases hl : m.locals with
      | nil => simp [Edit.carries, depth, hl] at hs
      | cons top rest => rw [edit_pop hl]
    | global | stacked => cases hs
  | declare | store => cases hs

/-- The site that an edit takes a frame from is told from the one that it takes it to. -/
theorem eq_origin_of_carries (hg : m.frameAt? s = some g) (h : e.carries m s = some u) :
    s = e.origin m u := by
  cases e with
  | create =>
    cases s with
    | temporary => cases h
    | global | stacked =>
      cases h
      rfl
  | push =>
    cases s with
    | global =>
      cases h
      rfl
    | temporary =>
      cases h
      exact (if_pos rfl).symm
    | stacked height =>
      cases h
      exact (if_neg (Nat.ne_of_lt (lt_depth_of_frameAt? hg))).symm
  | pop =>
    cases s with
    | global =>
      cases h
      rfl
    | temporary =>
      by_cases hdepth : m.depth = 0
      · rw [Edit.carries, if_pos hdepth] at h
        cases h
        exact (if_pos hdepth).symm
      · rw [Edit.carries, if_neg hdepth] at h
        cases h
    | stacked height =>
      by_cases htop : height + 1 = m.depth
      · rw [Edit.carries, if_pos htop] at h
        cases h
        rw [Edit.origin, if_neg (by omega), ← htop, Nat.add_sub_cancel]
      · rw [Edit.carries, if_neg htop] at h
        cases h
        rfl
  | declare | store =>
    cases h
    rfl

theorem frameAt?_of_follow {changes : List Frame.Edit} (hg : m.frameAt? s = some g)
    (h : m.follow es s = some (t, changes)) :
    (m.editedBy es).frameAt? t = some (g.editedBy changes) := by
  induction es generalizing m s g changes with
  | nil =>
    cases h
    exact hg
  | cons e es ih =>
    obtain ⟨u, hu, h⟩ := Option.bind_eq_some_iff.1 h
    obtain ⟨⟨_, rest⟩, hrest, hlast⟩ := Option.map_eq_some_iff.1 h
    cases hlast
    rw [editedBy_cons, Frame.editedBy_append]
    exact ih (frameAt?_of_carries hg hu) hrest

theorem fate (hg : m.frameAt? s = some g) (es : List Edit) : m.Fate es s g := by
  induction es generalizing m s g with
  | nil => exact .kept rfl hg
  | cons e es ih =>
    cases hu : e.carries m s with
    | none =>
      obtain ⟨rfl, he⟩ := given_up_of_carries hu
      have hsplit : e :: es = [] ++ e :: es := rfl
      exact .givenUp hsplit rfl he
    | some u =>
      have hrest {es t changes} (h : (m.edited e).follow es u = some (t, changes)) :
          m.follow (e :: es) s = some (t, e.onFrame m s ++ changes) := by
        simp only [follow, hu, h, Option.bind_some, Option.map_some]
      cases ih (frameAt?_of_carries hg hu) with
      | kept h _ => exact .kept (hrest h) (frameAt?_of_follow hg (hrest h))
      | @givenUp pre post e' _ split h he' =>
        have hsplit : e :: es = (e :: pre) ++ e' :: post := by rw [split, List.cons_append]
        exact .givenUp hsplit (hrest h) he'

/-- No two frames come to be at one site. -/
theorem follow_injective {g' : Frame} {a b : List Frame.Edit} (hs : m.frameAt? s = some g)
    (ht : m.frameAt? t = some g') (hsu : m.follow es s = some (u, a))
    (htu : m.follow es t = some (u, b)) : s = t := by
  induction es generalizing m s t g g' a b with
  | nil =>
    cases hsu
    cases htu
    rfl
  | cons e es ih =>
    obtain ⟨s', hs', hsu⟩ := Option.bind_eq_some_iff.1 hsu
    obtain ⟨⟨_, a'⟩, ha', hlast⟩ := Option.map_eq_some_iff.1 hsu
    cases hlast
    obtain ⟨t', ht', htu⟩ := Option.bind_eq_some_iff.1 htu
    obtain ⟨⟨_, b'⟩, hb', hlast⟩ := Option.map_eq_some_iff.1 htu
    cases hlast
    obtain rfl := ih (frameAt?_of_carries hs hs') (frameAt?_of_carries ht ht') ha' hb'
    rw [eq_origin_of_carries hs hs', eq_origin_of_carries ht ht']

theorem onFrame_global (m : Memory) (e : Edit) : e.onFrame m .global = e.onGlobal?.toList := by
  cases e with
  | create | push | pop => rfl
  | declare v | store v x =>
    obtain ⟨frame, name⟩ := v
    cases frame <;> rfl

/-- The global frame stays where it is. -/
theorem follow_global (m : Memory) (es : List Edit) :
    m.follow es .global = some (.global, es.filterMap Edit.onGlobal?) := by
  induction es generalizing m with
  | nil => rfl
  | cons e es ih =>
    have hstays : e.carries m .global = some .global := by cases e <;> rfl
    simp only [follow, hstays, Option.bind_some, ih, Option.map_some, onFrame_global]
    cases h : e.onGlobal? <;> simp [h]

/-- In every history, there is a temporary frame if the last successful edit that makes or moves a
frame was not a push, and the depth is the number of successful pushes less that of pops. A push
fails for want of a temporary frame only, a pop for want of a local one, and neither then changes
anything. A pop undoes a push, but a push undoes a pop only up to the temporary frame. Whatever
follows, the global frame stays and changes only by what is declared and stored in it, no two frames
become one, and a frame is given up only as the temporary one, at a creation or a successful pop. -/
theorem frames_live_by_history (history : List Edit) :
    let m := empty.editedBy history
    let done := empty.succeeded history
    (∀ e, m.edit e = settled m (e.attempt m)) ∧
      (m.temporary.isSome ↔
        ∃ e ∈ [Edit.create, .pop], (done.filter Edit.movesFrame).getLast? = some e) ∧
      (m.depth : Int) = done.count .push - done.count .pop ∧
      done.count .pop ≤ done.count .push ∧
      ((∃ f, (m.edit .push).2 = .error f) ↔ m.temporary = none) ∧
      ((∃ f, (m.edit .pop).2 = .error f) ↔ m.depth = 0) ∧
      (∀ e ∈ [Edit.push, .pop], ∀ f, (m.edit e).2 = .error f →
        f.kind = .frameAccess ∧ m.edited e = m) ∧
      ((m.edit .push).2 = .ok () → (m.edited .push).edit .pop = (m, .ok ())) ∧
      ((m.edit .pop).2 = .ok () →
        (m.edited .pop).edit .push = ({ m with temporary := none }, .ok ())) ∧
      ∀ later,
        m.follow later .global = some (.global, later.filterMap Edit.onGlobal?) ∧
          (m.editedBy later).global = m.global.editedBy (later.filterMap Edit.onGlobal?) ∧
          (∀ s g, m.frameAt? s = some g → m.Fate later s g) ∧
          ∀ s t g g' u a b, m.frameAt? s = some g → m.frameAt? t = some g' →
            m.follow later s = some (u, a) → m.follow later t = some (u, b) → s = t := by
  intro m done
  have hdepth : m.depth + done.count .pop = done.count .push := by
    have h := depth_editedBy empty history
    have hempty : empty.depth = 0 := rfl
    rwa [hempty, Nat.zero_add] at h
  refine ⟨m.edit_eq, temporary_iff_getLast? history, by omega, by omega, push_fails_iff,
    pop_fails_iff, ?_, edit_pop_of_push, edit_push_of_pop, ?_⟩
  · intro e he f hf
    refine ⟨?_, edited_of_fault hf⟩
    rcases List.mem_pair.1 he with rfl | rfl
    · exact kind_of_pushTemporary (edit_eq_error_iff.1 hf)
    · exact kind_of_popLocal (edit_eq_error_iff.1 hf)
  · intro later
    refine ⟨m.follow_global later, ?_, fun s g hg => fate hg later, ?_⟩
    · have hglobal : m.frameAt? .global = some m.global := rfl
      exact Option.some.inj (frameAt?_of_follow hglobal (m.follow_global later))
    · intro s t g g' u a b hs ht
      exact follow_injective hs ht

/-- A declared variable comes back with its frame, at the cost of the temporary frame of then. -/
theorem frames_live_by_history_restored :
    let m := empty.editedBy [.create, .declare ⟨.tf, "a"⟩, .push, .create, .declare ⟨.tf, "b"⟩]
    m.depth = 1 ∧ m.temporary.isSome ∧
      (m.edited .push).edit .pop = (m, .ok ()) ∧
      (m.edited .pop).edit .push = ({ m with temporary := none }, .ok ()) ∧
      m.Fate [.pop] .temporary (Frame.empty.editedBy [.declare "b"]) ∧
      m.Fate [.pop] (.stacked 0) (Frame.empty.editedBy [.declare "a"]) := by
  intro m
  obtain ⟨-, htemporary, hdepth, -, -, -, -, hpush, hpop, hlater⟩ := frames_live_by_history
    [.create, .declare ⟨.tf, "a"⟩, .push, .create, .declare ⟨.tf, "b"⟩]
  obtain ⟨-, -, hfate, -⟩ := hlater [.pop]
  have hlast : ((empty.succeeded [.create, .declare ⟨.tf, "a"⟩, .push, .create,
      .declare ⟨.tf, "b"⟩]).filter Edit.movesFrame).getLast? = some .create := by decide
  refine ⟨Int.ofNat.inj hdepth, htemporary.2 ⟨.create, by decide, hlast⟩, hpush (by decide),
    hpop (by decide), hfate _ _ (by decide), hfate _ _ (by decide)⟩

end Ippcode.Memory
