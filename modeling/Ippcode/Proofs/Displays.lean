import Ippcode.Proofs.Loading

/-! # Printed forms

What a value or a variable reference is printed as denotes it. The form of a value is split at its
first at sign into the kind and the text of an argument, whatever at signs there are in the text, so
no two values have one form. A variable reference is read from exactly the texts that references
with a name are printed as. Where it is read as an argument, the text is trimmed, and the one thing
that can be lost is a blank at the end of the name.
-/
namespace Ippcode

open Text (EndsBlank)

/-- The parts of a text in front of its first at sign and behind it. -/
def Text.AroundAt (text before after : String) : Prop :=
  text = before ++ "@" ++ after ∧ '@' ∉ before.toList

open Text (AroundAt)

/-! ## Variable references -/

theorem FrameTag.name_of_ofName? {tag : String} {t : FrameTag} (h : ofName? tag = some t) :
    t.name = tag := by
  unfold ofName? at h
  split at h <;> cases h <;> rfl

namespace VarRef

variable {text before after : String} {v : VarRef}

theorem splitAt?_of_aroundAt (h : AroundAt text before after) :
    splitAt? text = some (before, after) := by
  obtain ⟨rfl, hbefore⟩ := h
  have hne : ∀ c ∈ before.toList, (c != '@') = true := by
    intro c hc
    rw [bne_iff_ne]
    rintro rfl
    exact hbefore hc
  have hlist : (before ++ "@" ++ after).toList = before.toList ++ '@' :: after.toList := by
    rw [String.toList_append, String.toList_append, List.append_assoc]
    rfl
  rw [splitAt?, hlist, List.span_eq_takeWhile_dropWhile, List.takeWhile_append_of_pos hne,
    List.dropWhile_append_of_pos hne]
  simp

theorem ofText_eq_ok_iff : ofText text = .ok v ↔ v.text = text ∧ v.name ≠ "" := by
  constructor
  · intro h
    refine ⟨?_, (name_of_ofText h).1⟩
    unfold ofText at h
    split at h
    · cases h
    next tag name hsplit =>
      split at h
      · cases h
      next frame hframe =>
        split at h
        · cases h
        · cases h
          rw [← String.toList_inj, toList_of_splitAt? hsplit, ← FrameTag.name_of_ofName? hframe,
            VarRef.text, String.toList_append, String.toList_append]
          rfl
  · rintro ⟨rfl, hname⟩
    exact ofText_text hname

/-- References with a name are printed as a frame, an at sign and the name. -/
theorem exists_ofText_iff :
    (∃ v, ofText text = .ok v) ↔
      ∃ tag ∈ ["GF@", "LF@", "TF@"], ∃ name, name ≠ "" ∧ text = tag ++ name := by
  have htag : ∀ t : FrameTag, t.name ++ "@" ∈ ["GF@", "LF@", "TF@"] := by
    intro t
    cases t <;> decide
  have hframe : ∀ tag ∈ ["GF@", "LF@", "TF@"], ∃ t : FrameTag, tag = t.name ++ "@" := by
    simp only [List.forall_mem_cons, List.not_mem_nil, false_implies, implies_true, and_true]
    exact ⟨⟨.gf, by decide⟩, ⟨.lf, by decide⟩, ⟨.tf, by decide⟩⟩
  constructor
  · rintro ⟨v, hv⟩
    obtain ⟨rfl, hname⟩ := ofText_eq_ok_iff.1 hv
    exact ⟨v.frame.name ++ "@", htag v.frame, v.name, hname, rfl⟩
  · rintro ⟨tag, hmem, name, hname, rfl⟩
    obtain ⟨t, rfl⟩ := hframe tag hmem
    exact ⟨⟨t, name⟩, ofText_eq_ok_iff.2 ⟨rfl, hname⟩⟩

theorem ofText_var_iff (h : v.name ≠ "") :
    Argument.ofText "var" v.text = .ok (.var v) ↔ ¬ EndsBlank v.name := by
  constructor
  · intro hread
    exact (Argument.loadable_of_ofText hread).2
  · intro hend
    exact Argument.ofText_record (a := .var v) ⟨h, hend⟩

end VarRef

/-! ## Values -/

namespace Value

variable {v : Value} {before after : String}

theorem aroundAt_display (h : v ≠ .uninit) : AroundAt v.display v.typeName v.text := by
  cases v with
  | int | bool | str | nil => exact ⟨rfl, by simp [typeName]⟩
  | uninit => exact absurd rfl h

/-- The parts of a printed value are the kind and the text of the argument that it is. -/
theorem ofText_of_aroundAt (h : v ≠ .uninit) (hparts : AroundAt v.display before after) :
    before = v.typeName ∧ Argument.ofText before after = .ok (.const v) := by
  have hsplit := VarRef.splitAt?_of_aroundAt (aroundAt_display h)
  rw [VarRef.splitAt?_of_aroundAt hparts] at hsplit
  obtain ⟨rfl, rfl⟩ := Prod.mk.inj (Option.some.inj hsplit)
  exact ⟨rfl, Argument.ofText_const h⟩

theorem display_ne_uninit (h : v ≠ .uninit) : v.display ≠ display .uninit := by
  intro heq
  have hnone : VarRef.splitAt? (display .uninit) = none := by decide +kernel
  have hsplit := VarRef.splitAt?_of_aroundAt (aroundAt_display h)
  rw [heq, hnone] at hsplit
  cases hsplit

theorem display_injective : Function.Injective display := by
  intro a b h
  by_cases ha : a = .uninit
  · subst ha
    by_contra hb
    exact display_ne_uninit (Ne.symm hb) h.symm
  · have hb : b ≠ .uninit := by
      rintro rfl
      exact display_ne_uninit ha h
    have hread := (ofText_of_aroundAt hb (h ▸ aroundAt_display ha)).2
    have hconst : Argument.const a = .const b :=
      Except.ok.inj ((Argument.ofText_const ha).symm.trans hread)
    exact Symbol.const.inj (Argument.symbol.inj hconst)

end Value

/-- The form of a value that is not unassigned has an at sign. The part in front of the first one is
the name of its type, and an argument with this part for its kind and the rest for its text is the
value; no two values have one form. A text is read as a variable reference exactly if it is a frame,
an at sign and a name that is not empty, and then it is what the reference is printed as; every
reference with a name is read back. As an argument it is read back exactly if the name does not end
with a blank. -/
theorem printed_forms_read_back :
    (∀ v : Value, v ≠ .uninit →
      (∃ before after, AroundAt v.display before after) ∧
      ∀ before after, AroundAt v.display before after →
        before = v.typeName ∧ Argument.ofText before after = .ok (.const v)) ∧
    Function.Injective Value.display ∧
    (∀ text v, VarRef.ofText text = .ok v → v.text = text ∧ v.name ≠ "") ∧
    (∀ text, (∃ v, VarRef.ofText text = .ok v) ↔
      ∃ tag ∈ ["GF@", "LF@", "TF@"], ∃ name, name ≠ "" ∧ text = tag ++ name) ∧
    ∀ v : VarRef, v.name ≠ "" →
      VarRef.ofText v.text = .ok v ∧
      (Argument.ofText "var" v.text = .ok (.var v) ↔ ¬ EndsBlank v.name) := by
  refine ⟨fun v hv => ⟨?_, fun _ _ => Value.ofText_of_aroundAt hv⟩, Value.display_injective, ?_, ?_,
    ?_⟩
  · exact ⟨_, _, Value.aroundAt_display hv⟩
  · intro text v
    exact VarRef.ofText_eq_ok_iff.1
  · exact fun text => VarRef.exists_ofText_iff
  · intro v hv
    exact ⟨VarRef.ofText_text hv, VarRef.ofText_var_iff hv⟩

/-- A string of at signs, an escape and blanks, a name with a blank in front and an at sign in it,
and one that ends with a blank. -/
theorem printed_forms_read_back_at_signs :
    let v : Value := .str "@\\032 @\t"
    let r : VarRef := ⟨.lf, " @b"⟩
    let s : VarRef := ⟨.tf, "@\u2003"⟩
    (v ≠ .uninit ∧ AroundAt v.display "string" "@\\032 @\t" ∧
      Argument.ofText "string" "@\\032 @\t" = .ok (.const v)) ∧
      (r.name ≠ "" ∧ VarRef.ofText r.text = .ok r ∧ Argument.ofText "var" r.text = .ok (.var r)) ∧
      s.name ≠ "" ∧ VarRef.ofText s.text = .ok s ∧ Argument.ofText "var" s.text ≠ .ok (.var s) := by
  intro v r s
  obtain ⟨hvalues, -, -, -, hreferences⟩ := printed_forms_read_back
  have hv : v ≠ .uninit := by decide
  have hr : r.name ≠ "" := by decide
  have hs : s.name ≠ "" := by decide
  have hparts : AroundAt v.display "string" "@\\032 @\t" := ⟨rfl, by decide⟩
  obtain ⟨hback, harg⟩ := hreferences r hr
  obtain ⟨hback', harg'⟩ := hreferences s hs
  refine ⟨⟨hv, hparts, ((hvalues v hv).2 _ _ hparts).2⟩, ⟨hr, hback, harg.2 ?_⟩, hs, hback', ?_⟩
  · decide +kernel
  · rw [Ne, harg', not_not]
    decide +kernel

end Ippcode
