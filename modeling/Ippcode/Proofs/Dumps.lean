import Mathlib.Data.List.Nodup
import Ippcode.Proofs.Order
import Ippcode.Proofs.StoreLaws

/-! # What dumps show

A frame is read and listed by name, and nothing shows in which order its variables came to be
declared. What has been done to a variable decides alone whether it is declared and what value it
has; frames of the same variables have the same listing, as names are unique and ordered; so two
machines that a dump cannot tell apart by their sizes are told apart by their global variables only.
-/
namespace Ippcode

open Text (compareCodes)

namespace Frame

/-- What an edit of a variable makes of its value, if it is declared. -/
def Edit.onValue (old : Option Value) : Edit → Option Value
  | .declare _ => some (old.getD .uninit)
  | .set _ v => old.map fun _ => v

/-- The value that edits give a variable, if they declare it. -/
def lastValue (es : List Edit) (name : String) : Option Value :=
  (es.filter (·.name = name)).foldl Edit.onValue none

variable {f g : Frame} {name : String} {v : Value}

/-! ## Values -/

theorem get?_edited_declare (f : Frame) (name other : String) :
    (f.edited (.declare name)).get? other =
      if name = other then some ((f.get? other).getD .uninit) else f.get? other := by
  cases h : f.declare name with
  | ok g =>
    have hedited : f.edited (.declare name) = g := edited_of_attempt h
    have hnew : f.get? name = none := by
      rw [get?_eq_none_iff]
      intro hmem
      cases h.symm.trans (declare_eq_error_iff.2 ⟨hmem, rfl⟩)
    rw [hedited, get?_of_declare h]
    by_cases heq : name = other
    · subst heq
      simp [hnew]
    · simp [heq, Ne.symm heq]
  | error e =>
    have hedited : f.edited (.declare name) = f := edited_of_fault h
    have hmem : name ∈ f.names := (declare_eq_error_iff.1 h).1
    rw [hedited]
    by_cases heq : name = other
    · subst heq
      cases hget : f.get? name with
      | none => exact absurd hmem (get?_eq_none_iff.1 hget)
      | some v => simp
    · rw [if_neg heq]

/-- An edit makes something of the value of its variable, and of no other. -/
theorem get?_edited (f : Frame) (e : Edit) (name : String) :
    (f.edited e).get? name = if e.name = name then e.onValue (f.get? name) else f.get? name := by
  cases e with
  | declare n => exact f.get?_edited_declare n name
  | set n v =>
    rw [edited_set, get?_assign]
    by_cases h : n = name
    · subst h
      simp [Edit.name, Edit.onValue]
    · simp [Edit.name, h, Ne.symm h]

theorem get?_editedBy (f : Frame) (es : List Edit) (name : String) :
    (f.editedBy es).get? name =
      (es.filter (·.name = name)).foldl Edit.onValue (f.get? name) := by
  induction es generalizing f with
  | nil => rfl
  | cons e es ih =>
    rw [editedBy_cons, ih, get?_edited]
    by_cases h : e.name = name <;> simp [h]

theorem get?_eq_lastValue (es : List Edit) (name : String) :
    (empty.editedBy es).get? name = lastValue es name :=
  get?_editedBy empty es name

/-! ## Listings -/

theorem mem_entries_iff : (name, v) ∈ f.entries ↔ f.get? name = some v := by
  have hsome {w : Value} (h : f.get? name = some w) : (name, w) ∈ f.entries := by
    obtain ⟨before, after, hsplit, -⟩ := List.lookup_eq_some_iff.1 h
    simp [hsplit]
  refine ⟨fun h => ?_, hsome⟩
  cases hget : f.get? name with
  | none => exact absurd (List.mem_map_of_mem h) (get?_eq_none_iff.1 hget)
  | some w =>
    cases List.inj_on_of_nodup_map f.nodup h (hsome hget) rfl
    rfl

theorem nodup_entries (f : Frame) : f.entries.Nodup := List.Nodup.of_map _ f.nodup

theorem mem_sorted_iff : (name, v) ∈ f.sorted ↔ f.get? name = some v :=
  f.sorted_perm.mem_iff.trans mem_entries_iff

/-- A listing shows a variable once and with its value, if it is declared. -/
theorem filter_sorted (f : Frame) (name : String) :
    f.sorted.filter (·.1 = name) = ((f.get? name).map fun v => (name, v)).toList := by
  have hnodup : (f.sorted.filter (·.1 = name)).Nodup :=
    (f.sorted_perm.nodup_iff.2 f.nodup_entries).filter _
  cases h : f.get? name with
  | none =>
    refine List.filter_eq_nil_iff.2 ?_
    rintro ⟨n, v⟩ hmem heq
    obtain rfl : n = name := by simpa using heq
    cases h.symm.trans (mem_sorted_iff.1 hmem)
  | some v =>
    refine List.perm_singleton.1 ((List.perm_ext_iff_of_nodup hnodup (by simp)).2 ?_)
    rintro ⟨n, w⟩
    simp only [List.mem_filter, mem_sorted_iff, decide_eq_true_eq, List.mem_singleton,
      Prod.mk.injEq]
    constructor
    · rintro ⟨hw, rfl⟩
      exact ⟨rfl, Option.some.inj (hw.symm.trans h)⟩
    · rintro ⟨rfl, rfl⟩
      exact ⟨h, rfl⟩

/-- There is only one listing of the entries of a frame, whatever order they are taken in. -/
theorem sorted_eq_of_perm (h : f.entries.Perm g.entries) : f.sorted = g.sorted := by
  have hperm : f.sorted.Perm g.sorted := f.sorted_perm.trans (h.trans g.sorted_perm.symm)
  refine hperm.eq_of_pairwise ?_ f.pairwise_sorted g.pairwise_sorted
  intro e e' _ _ hlt hgt
  cases hlt.symm.trans (Std.OrientedCmp.gt_of_lt hgt)

theorem sorted_eq_of_get?_eq (h : ∀ name, f.get? name = g.get? name) : f.sorted = g.sorted := by
  apply sorted_eq_of_perm
  rw [List.perm_ext_iff_of_nodup f.nodup_entries g.nodup_entries]
  rintro ⟨name, v⟩
  rw [mem_entries_iff, mem_entries_iff, h]

end Frame

namespace Machine

variable {ρ σ ρ' σ' : Type}

/-- What a dump tells of a machine besides the global variables. -/
structure Summary where
  completed : Nat
  temporary : Bool
  depth : Nat
  calls : Nat
  operands : Nat

def summary (m : Machine ρ σ) : Summary where
  completed := m.completed
  temporary := m.memory.temporary.isSome
  depth := m.memory.depth
  calls := m.calls.length
  operands := m.operands.length

theorem dump_eq_of_summary_eq {m : Machine ρ σ} {m' : Machine ρ' σ'} (h : m.summary = m'.summary)
    (hglobal : m.memory.global.sorted = m'.memory.global.sorted) (order : Int64) :
    m.dump order = m'.dump order := by
  obtain ⟨hcompleted, htemporary, hdepth, hcalls, hoperands⟩ := Summary.mk.inj h
  unfold dump
  rw [hcompleted, htemporary, hdepth, hcalls, hoperands, hglobal]

end Machine

/-- After any edits, a listing shows what they have declared: in strictly ascending order, each
variable once and with the value that the edits of it have given it. It does not depend on the order
that the entries are taken in, nor on that of edits of different variables, but only on the values.
So machines of equal summaries and global values dump the same text, wherever they come from. -/
theorem dumps_show_values {ρ σ ρ' σ' : Type} [Reader ρ] [Writer σ] [Reader ρ'] [Writer σ']
    (es ds : List Frame.Edit) (p p' : Program) (m : Machine ρ σ) (m' : Machine ρ' σ')
    (order : Int64) :
    let f := Frame.empty.editedBy es
    let g := Frame.empty.editedBy ds
    (f.sorted.Pairwise fun e e' => compareCodes e.1 e'.1 = .lt) ∧
      (∀ name, f.sorted.filter (·.1 = name) =
        ((Frame.lastValue es name).map fun v => (name, v)).toList) ∧
      (∀ f g : Frame, f.entries.Perm g.entries → f.sorted = g.sorted) ∧
      ((∀ name, Frame.lastValue es name = Frame.lastValue ds name) → f.sorted = g.sorted) ∧
      ((∀ name, es.filter (·.name = name) = ds.filter (·.name = name)) → f.sorted = g.sorted) ∧
      (m.summary = m'.summary →
        (∀ name, m.memory.global.get? name = m'.memory.global.get? name) →
        ∃ text, m.exec p ⟨order, .brk⟩ = m.emit .err (.str text) ∧
          m'.exec p' ⟨order, .brk⟩ = m'.emit .err (.str text)) := by
  intro f g
  have hlast (h : ∀ name, Frame.lastValue es name = Frame.lastValue ds name) :
      f.sorted = g.sorted := by
    refine Frame.sorted_eq_of_get?_eq fun name => ?_
    rw [Frame.get?_eq_lastValue, Frame.get?_eq_lastValue, h]
  refine ⟨f.pairwise_sorted, ?_, fun f g => Frame.sorted_eq_of_perm, hlast, ?_, ?_⟩
  · intro name
    rw [f.filter_sorted, Frame.get?_eq_lastValue]
  · intro h
    refine hlast fun name => ?_
    rw [Frame.lastValue, h, Frame.lastValue]
  · intro hsummary hglobal
    refine ⟨m.dump order, rfl, ?_⟩
    rw [Machine.dump_eq_of_summary_eq hsummary (Frame.sorted_eq_of_get?_eq hglobal)]
    rfl

/-- Two variables are declared in either order, and one of them is set before or after the other is
declared. -/
theorem dumps_show_values_exchanged :
    let es : List Frame.Edit := [.declare "b", .declare "a", .set "a" (.int 1)]
    let ds : List Frame.Edit := [.declare "a", .set "a" (.int 1), .declare "b"]
    let m (es : List Frame.Edit) : Machine :=
      { Machine.start ⟨[]⟩ (.empty none) (.empty none) with memory.global := .editedBy .empty es }
    let line : Line := ⟨4, .brk⟩
    m es ≠ m ds ∧
      (Frame.empty.editedBy es).sorted.filter (·.1 = "a") = [("a", .int 1)] ∧
      (Frame.empty.editedBy es).sorted = (Frame.empty.editedBy ds).sorted ∧
      ∃ text, (m es).exec ⟨#[], []⟩ line = (m es).emit .err (.str text) ∧
        (m ds).exec ⟨#[], []⟩ line = (m ds).emit .err (.str text) := by
  intro es ds m line
  have hsame : ∀ name, es.filter (·.name = name) = ds.filter (·.name = name) := by
    intro name
    by_cases ha : name = "a"
    · subst ha
      decide
    · simp [es, ds, List.filter_cons, Frame.Edit.name, Ne.symm ha]
  have hvalues : ∀ name, (Frame.empty.editedBy es).get? name =
      (Frame.empty.editedBy ds).get? name := by
    intro name
    rw [Frame.get?_eq_lastValue, Frame.get?_eq_lastValue, Frame.lastValue, hsame, Frame.lastValue]
  obtain ⟨-, honce, -, -, hsorted, hdumps⟩ :=
    dumps_show_values es ds ⟨#[], []⟩ ⟨#[], []⟩ (m es) (m ds) line.order
  refine ⟨fun h => ?_, honce "a", hsorted hsame, hdumps rfl hvalues⟩
  have hglobal := congrArg (·.memory.global.entries) h
  exact absurd hglobal (by decide)

end Ippcode
