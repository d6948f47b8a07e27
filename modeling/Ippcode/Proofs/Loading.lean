import Ippcode.Document
import Ippcode.Proofs.JsonText
import Ippcode.Proofs.Literals
import Ippcode.Proofs.Result
import Mathlib.Data.List.Nodup
import Mathlib.Data.List.TakeDrop

/-! # Loading undoes rendering

Instructions are loadable if their operands fit, no constant is unassigned, and names are not empty
and have no blanks where trimming would remove them. Each of them has a record in a document, and a
JSON value gives a record as an object with its keys in any order or as an array of its fields. Main
statement: every text of a document with the records of loadable instructions is loaded as these
instructions in the order of the document, and only loadable instructions are ever loaded.
-/
namespace Ippcode

/-! ## Names, arguments and instructions -/

namespace VarRef

/-- A text is split at an at sign. -/
theorem toList_of_splitAt? {text tag name : String} (h : splitAt? text = some (tag, name)) :
    text.toList = (tag.toList ++ ['@']) ++ name.toList := by
  unfold splitAt? at h
  rw [List.span_eq_takeWhile_dropWhile] at h
  split at h
  · next before c after heq =>
    obtain ⟨rfl, hdrop⟩ := Prod.mk.inj heq
    obtain ⟨rfl, rfl⟩ := Prod.mk.inj (Option.some.inj h)
    have hc := List.head?_dropWhile_not (· != '@') text.toList
    rw [hdrop] at hc
    obtain rfl : c = '@' := by simpa using hc
    have happend := List.takeWhile_append_dropWhile (p := (· != '@')) (l := text.toList)
    simpa [hdrop] using happend.symm
  · cases h

theorem splitAt?_text (v : VarRef) : splitAt? v.text = some (v.frame.name, v.name) := by
  obtain ⟨frame, name⟩ := v
  cases frame <;> simp [splitAt?, text, FrameTag.name, List.span_eq_takeWhile_dropWhile]

theorem ofText_text {v : VarRef} (h : v.name ≠ "") : ofText v.text = .ok v := by
  simp [ofText, splitAt?_text, h]

theorem trim_text {v : VarRef} (hname : v.name ≠ "") (h : ¬ Text.EndsBlank v.name) :
    Text.trim v.text = v.text := by
  apply Text.trim_eq_self
  · rintro ⟨c, hc, hblank⟩
    have hhead : v.text.toList.head? = v.frame.name.toList.head? := by
      cases hf : v.frame <;> simp [text, FrameTag.name, hf]
    have hframe : ¬ Text.StartsBlank v.frame.name := by cases v.frame <;> decide +kernel
    exact hframe ⟨c, hhead ▸ hc, hblank⟩
  · rwa [Text.endsBlank_iff (toList_of_splitAt? v.splitAt?_text) hname]

/-- A name that is read is not empty and ends as the text does. -/
theorem name_of_ofText {text : String} {v : VarRef} (h : ofText text = .ok v) :
    v.name ≠ "" ∧ (Text.EndsBlank text ↔ Text.EndsBlank v.name) := by
  unfold ofText at h
  split at h
  · cases h
  · next tag name hsplit =>
    split at h
    · cases h
    · split at h
      · cases h
      · next hname =>
        cases h
        have hne : name ≠ "" := by simpa using hname
        exact ⟨hne, Text.endsBlank_iff (toList_of_splitAt? hsplit) hne⟩

end VarRef

namespace Argument

/-- The kind and the text of an argument in a document. -/
def record : Argument → Document.ArgumentRecord
  | .symbol (.const v) => ⟨v.typeName, v.text⟩
  | .symbol (.var v) => ⟨"var", v.text⟩
  | .label name => ⟨"label", name⟩
  | .type t => ⟨"type", t.name⟩

/-- Constants are values and names have no blanks that trimming would remove. -/
def Loadable : Argument → Prop
  | .symbol (.const v) => v ≠ .uninit
  | .symbol (.var v) => v.name ≠ "" ∧ ¬ Text.EndsBlank v.name
  | .label name => name ≠ "" ∧ ¬ Text.StartsBlank name ∧ ¬ Text.EndsBlank name
  | .type _ => True

instance : (a : Argument) → Decidable a.Loadable
  | .symbol (.const v) => inferInstanceAs (Decidable (v ≠ .uninit))
  | .symbol (.var v) => inferInstanceAs (Decidable (v.name ≠ "" ∧ ¬ Text.EndsBlank v.name))
  | .label name =>
    inferInstanceAs (Decidable (name ≠ "" ∧ ¬ Text.StartsBlank name ∧ ¬ Text.EndsBlank name))
  | .type _ => inferInstanceAs (Decidable True)

theorem ofText_const {v : Value} (h : v ≠ .uninit) :
    ofText v.typeName v.text = .ok (const v) := by
  cases v with
  | int n => simp [ofText, Value.typeName, Value.text, ofInt]
  | bool b => cases b <;> decide +kernel
  | str s => rfl
  | nil => decide +kernel
  | uninit => exact absurd rfl h

/-- A loadable argument is what its kind and text denote. -/
theorem ofText_record {a : Argument} (h : a.Loadable) :
    ofText a.record.kind a.record.value = .ok a := by
  cases a with
  | symbol s =>
    cases s with
    | var v =>
      obtain ⟨hname, hend⟩ := h
      simp [record, ofText, VarRef.trim_text hname hend, VarRef.ofText_text hname, Except.map, var]
    | const v => exact ofText_const h
  | label name =>
    obtain ⟨hname, hstart, hend⟩ := h
    simp [record, ofText, ofLabel, Text.trim_eq_self hstart hend, hname]
  | type t => cases t <;> decide +kernel

theorem loadable_of_ofInt {text : String} {a : Argument} (h : ofInt text = .ok a) :
    a.Loadable := by
  unfold ofInt at h
  split at h <;> cases h
  simp [Loadable, const]

theorem loadable_of_ofBool {text : String} {a : Argument} (h : ofBool text = .ok a) :
    a.Loadable := by
  unfold ofBool at h
  split at h <;> cases h <;> simp [Loadable, const]

theorem loadable_of_ofNil {text : String} {a : Argument} (h : ofNil text = .ok a) :
    a.Loadable := by
  unfold ofNil at h
  split at h <;> cases h <;> simp [Loadable, const]

/-- Whatever a kind and a text denote is loadable: what is read of a name was trimmed before. -/
theorem loadable_of_ofText {kind text : String} {a : Argument} (h : ofText kind text = .ok a) :
    a.Loadable := by
  unfold ofText at h
  split at h
  · exact loadable_of_ofInt h
  · exact loadable_of_ofBool h
  · cases h
    simp [Loadable, const]
  · exact loadable_of_ofNil h
  · obtain ⟨v, hv, rfl⟩ := Except.map_eq_ok.1 h
    obtain ⟨hname, hend⟩ := VarRef.name_of_ofText hv
    exact ⟨hname, fun hblank => Text.not_endsBlank_trim text (hend.2 hblank)⟩
  · unfold ofLabel at h
    split at h
    · cases h
    · next hname =>
      cases h
      exact ⟨by simpa using hname, Text.not_startsBlank_trim text, Text.not_endsBlank_trim text⟩
  · obtain ⟨t, _, rfl⟩ := Except.map_eq_ok.1 h
    trivial
  · cases h

end Argument

namespace Opcode

/-- No two names differ only in the case of their letters. -/
theorem letters_injective :
    Function.Injective fun op : Opcode => op.name.toList.map Char.toLower := by
  intro a b h
  have hnodup : (all.map fun op => op.name.toList.map Char.toLower).Nodup := by decide +kernel
  exact List.inj_on_of_nodup_map hnodup (mem_all a) (mem_all b) h

theorem ofName?_eq_some_iff {s : String} {op : Opcode} :
    ofName? s = some op ↔ Text.sameLetters op.name s := by
  have hsound {found : Opcode} (h : ofName? s = some found) : Text.sameLetters found.name s := by
    have hp := List.find?_some h
    exact hp
  constructor
  · exact hsound
  · intro h
    obtain ⟨found, hfound⟩ : ∃ found, ofName? s = some found :=
      Option.isSome_iff_exists.1 (List.find?_isSome.2 ⟨op, mem_all op, h⟩)
    have hsame := Text.sameLetters_iff.1 (hsound hfound)
    rw [hfound, letters_injective (hsame.trans (Text.sameLetters_iff.1 h).symm)]

theorem trim_name (op : Opcode) : Text.trim op.name = op.name := by
  have hall : ∀ op ∈ all, op.name.toList.any Text.isBlank = false := by decide +kernel
  exact Text.trim_eq_self_of_forall (List.any_eq_false.1 (hall op (mem_all op)))

end Opcode

namespace Instruction

structure Loadable (i : Instruction) : Prop where
  fits : i.fault? = none
  args : ∀ a ∈ i.args, a.Loadable

instance (i : Instruction) : Decidable i.Loadable :=
  decidable_of_iff (i.fault? = none ∧ ∀ a ∈ i.args, a.Loadable)
    ⟨fun h => ⟨h.1, h.2⟩, fun h => ⟨h.fits, h.args⟩⟩

def record (i : Instruction) : Document.InstructionRecord :=
  ⟨i.order, i.opcode.name, i.args.map Argument.record⟩

theorem make_eq_ok_iff {order : Int64} {op : Opcode} {args : List Argument} {i : Instruction} :
    make order op args = .ok i ↔ i = ⟨order, op, args⟩ ∧ i.fault? = none := by
  simp only [make]
  split
  · next f hf =>
    simp only [reduceCtorEq, false_iff, not_and]
    rintro rfl
    simp [hf]
  · next hf =>
    rw [Except.ok.injEq]
    constructor
    · rintro rfl
      exact ⟨rfl, hf⟩
    · rintro ⟨rfl, _⟩
      rfl

theorem instruction_record {i : Instruction} (h : i.Loadable) : i.record.instruction = .ok i := by
  have hargs : (i.args.map Argument.record).mapM (fun a => Argument.ofText a.kind a.value) =
      .ok i.args := by
    rw [Except.mapM_eq_ok_iff, List.forall₂_map_left_iff, List.forall₂_same]
    exact fun a ha => Argument.ofText_record (h.args a ha)
  have hop : Opcode.ofName? (Text.trim i.opcode.name) = some i.opcode := by
    rw [Opcode.trim_name, Opcode.ofName?_eq_some_iff, Text.sameLetters_iff]
  simp only [Document.InstructionRecord.instruction, record, hop]
  exact Except.bind_eq_ok.2 ⟨i.args, hargs, make_eq_ok_iff.2 ⟨rfl, h.fits⟩⟩

theorem loadable_of_record {r : Document.InstructionRecord} {i : Instruction}
    (h : r.instruction = .ok i) : i.Loadable := by
  unfold Document.InstructionRecord.instruction at h
  split at h
  · cases h
  · obtain ⟨args, hargs, hmake⟩ := Except.bind_eq_ok.1 h
    obtain ⟨rfl, hfits⟩ := make_eq_ok_iff.1 hmake
    refine ⟨hfits, fun a ha => ?_⟩
    obtain ⟨_, _, hread⟩ := Except.exists_of_mem_mapM hargs ha
    exact Argument.loadable_of_ofText hread

end Instruction

/-! ## Records -/

namespace Json

/-- A record with the given fields: an object with them in any order, or the array of their
values. -/
inductive RecordOf (fields : List (String × Json)) : Json → Prop
  | object {members : List (String × Json)} (perm : members.Perm fields) :
      RecordOf fields (.object members)
  | array : RecordOf fields (.array (fields.map Prod.snd))

theorem lookup_eq_of_perm {ms ns : List (String × Json)} (h : ms.Perm ns)
    (hkeys : (ms.map Prod.fst).Nodup) (key : String) : ms.lookup key = ns.lookup key := by
  induction h with
  | nil => rfl
  | cons m _ ih =>
    obtain ⟨k, j⟩ := m
    rw [List.lookup_cons, List.lookup_cons, ih (List.nodup_cons.1 hkeys).2]
  | swap m n ms =>
    obtain ⟨k, j⟩ := m
    obtain ⟨k', j'⟩ := n
    have hne : k ≠ k' := by
      rintro rfl
      simp at hkeys
    by_cases hk : key = k
    · simp [List.lookup_cons, hk, beq_false_of_ne hne]
    · simp [List.lookup_cons, beq_false_of_ne hk]
  | trans h₁ _ ih₁ ih₂ => exact (ih₁ hkeys).trans (ih₂ ((h₁.map _).nodup_iff.1 hkeys))

/-- Either form of a record has the fields that it was made of. -/
theorem record?_of_recordOf {fields : List (String × Json)} {j : Json} (h : RecordOf fields j)
    (hkeys : (fields.map Prod.fst).Nodup) :
    ∃ members, j.record? (fields.map Prod.fst) = some members ∧
      ∀ key, members.lookup key = fields.lookup key := by
  cases h with
  | object perm =>
    have hkeys' := (perm.map Prod.fst).nodup_iff.2 hkeys
    refine ⟨_, if_pos ⟨hkeys', fun key hkey => ?_⟩, lookup_eq_of_perm perm hkeys'⟩
    exact (perm.map Prod.fst).mem_iff.1 hkey
  | array =>
    refine ⟨fields, ?_, fun _ => rfl⟩
    rw [record?, if_pos (by simp), List.zip_map', List.map_id'' (fun _ => rfl)]

theorem numbersValid_of_recordOf {fields : List (String × Json)} {j : Json}
    (h : RecordOf fields j) (hfields : ∀ m ∈ fields, m.2.NumbersValid) : j.NumbersValid := by
  cases h with
  | object perm =>
    rw [numbersValid_object]
    exact fun m hm => hfields m (perm.mem_iff.1 hm)
  | array =>
    rw [numbersValid_array]
    exact List.forall_mem_map.2 hfields

theorem numbersValid_of_forall₂ {α : Type} {shown : α → Json → Prop} {as : List α}
    {js : List Json} (h : List.Forall₂ shown as js)
    (hvalid : ∀ a j, shown a j → j.NumbersValid) : (Json.array js).NumbersValid := by
  rw [numbersValid_array]
  induction h with
  | nil => simp
  | cons hfirst _ ih => exact List.forall_mem_cons.2 ⟨hvalid _ _ hfirst, ih⟩

end Json

/-! ## Documents -/

namespace Document

open Json (RecordOf)

/-- The JSON values that give an argument. -/
def ArgumentRecord.Shown (r : ArgumentRecord) : Json → Prop :=
  RecordOf [("type", .string r.kind), ("value", .string r.value)]

/-- The JSON values that give an instruction. -/
def InstructionRecord.Shown (r : InstructionRecord) (j : Json) : Prop :=
  ∃ args, List.Forall₂ ArgumentRecord.Shown r.args args ∧
    RecordOf [("order", .number (Text.Decimal.render r.order)), ("opcode", .string r.opcode),
      ("args", .array args)] j

/-- The JSON values that give a document; only an object can leave out the language. -/
inductive Shown (d : Document) : Json → Prop
  | named {j : Json} {items : List Json}
      (listed : List.Forall₂ InstructionRecord.Shown d.instructions items)
      (record : RecordOf [("language", d.language.elim .null .string),
        ("instructions", .array items)] j) : Shown d j
  | unnamed {items : List Json} (name : d.language = none)
      (listed : List.Forall₂ InstructionRecord.Shown d.instructions items) :
      Shown d (.object [("instructions", .array items)])

theorem ArgumentRecord.ofJson?_of_shown {r : ArgumentRecord} {j : Json} (h : r.Shown j) :
    ofJson? j = some r := by
  obtain ⟨members, hrecord, hlookup⟩ := Json.record?_of_recordOf h (by simp)
  simp only [List.map_cons, List.map_nil] at hrecord
  simp [ofJson?, hrecord, hlookup, required, optional, Json.string?, List.lookup_cons]

theorem orderOfJson?_render (n : Int64) :
    orderOfJson? (.number (Text.Decimal.render n)) = some n := by
  simp [orderOfJson?, Text.Decimal.render_ne_minus_zero]

theorem listOfJson?_of_forall₂ {α : Type} {read : Json → Option α} {shown : α → Json → Prop}
    {as : List α} {js : List Json} (h : List.Forall₂ shown as js)
    (hread : ∀ a j, shown a j → read j = some a) : listOfJson? read (.array js) = some as := by
  rw [listOfJson?, Json.array?, Option.bind_some]
  induction h with
  | nil => rfl
  | cons hfirst _ ih => simp [hread _ _ hfirst, ih]

theorem InstructionRecord.ofJson?_of_shown {r : InstructionRecord} {j : Json} (h : r.Shown j) :
    ofJson? j = some r := by
  obtain ⟨args, hargs, h⟩ := h
  obtain ⟨members, hrecord, hlookup⟩ := Json.record?_of_recordOf h (by simp)
  have hlist := listOfJson?_of_forall₂ hargs fun _ _ => ArgumentRecord.ofJson?_of_shown
  simp only [List.map_cons, List.map_nil] at hrecord
  simp [ofJson?, hrecord, hlookup, required, optional, Json.string?, List.lookup_cons,
    orderOfJson?_render, hlist]

theorem languageOfJson?_elim (language : Option String) :
    languageOfJson? (language.elim .null .string) = some language := by
  cases language <;> rfl

theorem ofJson?_of_shown {d : Document} {j : Json} (h : d.Shown j) : ofJson? j = some d := by
  obtain ⟨language, instructions⟩ := d
  cases h with
  | named listed record =>
    obtain ⟨members, hrecord, hlookup⟩ := Json.record?_of_recordOf record (by simp)
    have hlist := listOfJson?_of_forall₂ listed fun _ _ => InstructionRecord.ofJson?_of_shown
    simp only [List.map_cons, List.map_nil] at hrecord
    simp [ofJson?, hrecord, hlookup, required, optional, List.lookup_cons, languageOfJson?_elim,
      hlist]
  | unnamed name listed =>
    obtain rfl : language = none := name
    have hlist := listOfJson?_of_forall₂ listed fun _ _ => InstructionRecord.ofJson?_of_shown
    simp [ofJson?, Json.record?, required, optional, List.lookup_cons, hlist]

theorem ArgumentRecord.numbersValid_of_shown {r : ArgumentRecord} {j : Json} (h : r.Shown j) :
    j.NumbersValid :=
  Json.numbersValid_of_recordOf h (by simp [Json.NumbersValid, Json.tokens])

theorem InstructionRecord.numbersValid_of_shown {r : InstructionRecord} {j : Json}
    (h : r.Shown j) : j.NumbersValid := by
  obtain ⟨args, hargs, h⟩ := h
  have hlist := Json.numbersValid_of_forall₂ hargs fun _ _ => ArgumentRecord.numbersValid_of_shown
  apply Json.numbersValid_of_recordOf h
  simp only [List.forall_mem_cons, hlist]
  simp [Json.NumbersValid, Json.tokens, Text.Decimal.isValid_render]

/-- All numbers of a document are orders, and these are written as JSON writes numbers. -/
theorem numbersValid_of_shown {d : Document} {j : Json} (h : d.Shown j) : j.NumbersValid := by
  cases h with
  | named listed record =>
    have hlist := Json.numbersValid_of_forall₂ listed fun _ _ =>
      InstructionRecord.numbersValid_of_shown
    apply Json.numbersValid_of_recordOf record
    simp only [List.forall_mem_cons, hlist]
    cases d.language <;> simp [Json.NumbersValid, Json.tokens]
  | unnamed name listed =>
    have hlist := Json.numbersValid_of_forall₂ listed fun _ _ =>
      InstructionRecord.numbersValid_of_shown
    rw [Json.numbersValid_object]
    simpa using hlist

theorem load_records {language : Option String} {is : List Instruction}
    (hlanguage : language = none ∨ language = some languageName)
    (h : ∀ i ∈ is, i.Loadable) : load ⟨language, is.map Instruction.record⟩ = .ok is := by
  have hcheck : checkLanguage ⟨language, is.map Instruction.record⟩ = .ok () := by
    rcases hlanguage with rfl | rfl
    · rfl
    · simp [checkLanguage, Text.sameLetters]
  have hrecords : (is.map Instruction.record).mapM InstructionRecord.instruction = .ok is := by
    rw [Except.mapM_eq_ok_iff, List.forall₂_map_left_iff, List.forall₂_same]
    exact fun i hi => Instruction.instruction_record (h i hi)
  exact Except.bind_eq_ok.2 ⟨(), hcheck, hrecords⟩

theorem loadable_of_load {d : Document} {is : List Instruction} (h : d.load = .ok is) :
    ∀ i ∈ is, i.Loadable := by
  intro i hi
  obtain ⟨_, _, hrecords⟩ := Except.bind_eq_ok.1 h
  obtain ⟨r, _, hr⟩ := Except.exists_of_mem_mapM hrecords hi
  exact Instruction.loadable_of_record hr

theorem loadable_of_loadText {text : String} {is : List Instruction}
    (h : loadText text = .ok is) : ∀ i ∈ is, i.Loadable := by
  unfold loadText at h
  cases hd : ofText text with
  | ok d =>
    rw [hd] at h
    exact loadable_of_load h
  | error f =>
    rw [hd] at h
    cases h

theorem loadText_of_spelling {d : Document} {j : Json} {text : String} (h : d.Shown j)
    (htext : j.Spelling text) : loadText text = d.load := by
  rw [loadText, ofText, Json.parse?_of_spelling htext]
  simp only [ofJson?_of_shown h]
  rfl

/-- Every text of a document with the records of loadable instructions is loaded as these
instructions, in the same order, its rendering among them, and only loadable instructions are ever
loaded. -/
theorem loading_undoes_rendering :
    (∀ (is : List Instruction) (language : Option String) (j : Json),
      (∀ i ∈ is, i.Loadable) → (language = none ∨ language = some languageName) →
      Shown ⟨language, is.map Instruction.record⟩ j →
        j.Spelling j.render ∧ ∀ text, j.Spelling text → loadText text = .ok is) ∧
    ∀ (text : String) (is : List Instruction), loadText text = .ok is → ∀ i ∈ is, i.Loadable := by
  refine ⟨?_, fun text is => loadable_of_loadText⟩
  intro is language j hload hlanguage hshown
  refine ⟨Json.spelling_render (numbersValid_of_shown hshown), ?_⟩
  intro text htext
  rw [loadText_of_spelling hshown htext]
  exact load_records hlanguage hload

/-- Keys out of order beside arrays, quotes and backslashes in a string, the least order and a name
that starts with a blank; and a padded label, which is loaded without its blanks. -/
theorem loading_undoes_rendering_mixed :
    loadText ("\x7b\"instructions\":[[-9223372036854775808,\"WRITE\","
      ++ "[\x7b\"value\":\"\\\"\\\\ 😀 \",\"type\":\"string\"\x7d]],"
      ++ "\x7b\"args\":[[\"var\",\"GF@ a@b\"]],\"order\":7,\"opcode\":\"DEFVAR\"\x7d],"
      ++ "\"language\":null\x7d") =
      .ok [⟨Int64.minValue, .write, [.const (.str "\"\\ 😀 ")]⟩,
        ⟨7, .defVar, [.var ⟨.gf, " a@b"⟩]⟩] ∧
    Instruction.Loadable ⟨1, .label, [.label "x y"]⟩ := by
  constructor
  · let first : Instruction := ⟨Int64.minValue, .write, [.const (.str "\"\\ 😀 ")]⟩
    let second : Instruction := ⟨7, .defVar, [.var ⟨.gf, " a@b"⟩]⟩
    have hfirst : first.record.Shown (.array [_, _, .array [.object [_, _]]]) :=
      ⟨_, .cons (.object (.swap _ _ _)) .nil, .array⟩
    have hsecond : second.record.Shown (.object [_, _, _]) :=
      ⟨_, .cons .array .nil, .object ((List.Perm.swap _ _ _).trans (.cons _ (.swap _ _ _)))⟩
    have hshown : Shown ⟨none, [first, second].map Instruction.record⟩ (.object [_, _]) :=
      .named (.cons hfirst (.cons hsecond .nil)) (.object (.swap _ _ _))
    have hload : ∀ i ∈ [first, second], i.Loadable := by decide +kernel
    have h := loading_undoes_rendering.1 _ none _ hload (.inl rfl) hshown
    exact Eq.trans (congrArg loadText (by decide +kernel)) (h.2 _ h.1)
  · have hload : loadText "\x7b\"instructions\":[[1,\" label\",[[\"label\",\" x y\\t\"]]]]\x7d" =
        .ok [⟨1, .label, [.label "x y"]⟩] := by decide +kernel
    exact loading_undoes_rendering.2 _ _ hload _ (List.mem_singleton_self _)

end Document

end Ippcode
