import Ippcode.Proofs.FirstFault

/-! # The spelling of documents

A document can be spelled in many ways. Letters of the language and of opcodes may be of either
case, and blanks may stand around opcodes and around the values of all arguments but strings;
nothing of this changes what the document is loaded as. The value of a string is all that it is
given as, so documents whose strings differ are never loaded as the same instructions.
-/
namespace Ippcode

/-! ## Texts -/

namespace Text

/-- The same text with letters from `A` to `Z` in the other case. -/
def Recased (s t : String) : Prop :=
  List.Forall₂ (fun c d => d = c ∨ d = c.toLower ∨ d = c.toUpper) s.toList t.toList

/-- The same text with other blanks in front of it and behind it. -/
def Repadded (s t : String) : Prop :=
  ∃ core front back front' back', s.toList = front ++ core ++ back ∧
    t.toList = front' ++ core ++ back' ∧ ∀ c ∈ front ++ back ++ (front' ++ back'), isBlank c

theorem toNat_toLower (c : Char) :
    c.toLower.toNat = if 65 ≤ c.toNat ∧ c.toNat ≤ 90 then c.toNat + 32 else c.toNat := by
  have hiff : (c.val ≥ 'A'.val ∧ c.val ≤ 'Z'.val) ↔ 65 ≤ c.toNat ∧ c.toNat ≤ 90 := Iff.rfl
  unfold Char.toLower
  split
  next h =>
    have hrange := hiff.1 h
    have hplus : ('a'.val - 'A'.val).toNat = 32 := by decide
    rw [if_pos hrange, Char.toNat_mk, UInt32.toNat_add, Char.toNat_val, hplus]
    omega
  next h => rw [if_neg (mt hiff.2 h)]

theorem toNat_toUpper (c : Char) :
    c.toUpper.toNat = if 97 ≤ c.toNat ∧ c.toNat ≤ 122 then c.toNat - 32 else c.toNat := by
  have hiff : ('a'.val ≤ c.val ∧ c.val ≤ 'z'.val) ↔ 97 ≤ c.toNat ∧ c.toNat ≤ 122 := Iff.rfl
  unfold Char.toUpper
  split
  next h =>
    have hrange := hiff.1 h
    have hminus : ('A'.val - 'a'.val).toNat = 2 ^ 32 - 32 := by decide
    rw [if_pos hrange, Char.toNat_mk, UInt32.toNat_add, Char.toNat_val, hminus]
    omega
  next h => rw [if_neg (mt hiff.2 h)]

theorem recased_char_iff {c d : Char} :
    (d = c ∨ d = c.toLower ∨ d = c.toUpper) ↔ c.toLower = d.toLower := by
  simp only [← Char.toNat_inj, toNat_toLower, toNat_toUpper]
  split_ifs <;> omega

/-- Texts are compared up to the case of their letters. -/
theorem recased_iff {s t : String} : Recased s t ↔ sameLetters s t := by
  rw [sameLetters_iff, ← List.forall₂_eq_eq_eq, List.forall₂_map_left_iff,
    List.forall₂_map_right_iff]
  simp only [Recased, recased_char_iff]

/-- No letter is a blank, whatever its case. -/
theorem isBlank_toLower (c : Char) : isBlank c.toLower = isBlank c := by
  have hcode := toNat_toLower c
  by_cases h : 65 ≤ c.toNat ∧ c.toNat ≤ 90
  · rw [if_pos h] at hcode
    rw [Bool.eq_iff_iff]
    simp only [isBlank, blankRanges, List.any_cons, List.any_nil, Bool.or_false, Bool.or_eq_true,
      Bool.and_eq_true, decide_eq_true_eq]
    omega
  · rw [if_neg h, Char.toNat_inj] at hcode
    rw [hcode]

theorem trimChars_map_toLower (cs : List Char) :
    trimChars (cs.map Char.toLower) = (trimChars cs).map Char.toLower := by
  have hcomp : isBlank ∘ Char.toLower = isBlank := funext isBlank_toLower
  simp only [trimChars, List.dropWhile_map, hcomp, ← List.map_reverse]

/-- Trimming a text in letters of another case gives what is left of it in letters of that case. -/
theorem sameLetters_trim {s t u : String} (h : Recased s t) :
    sameLetters u (trim t) = sameLetters u (trim s) := by
  have hmap := congrArg trimChars (sameLetters_iff.1 (recased_iff.1 h))
  rw [trimChars_map_toLower, trimChars_map_toLower] at hmap
  simp only [sameLetters, toList_trim, hmap]

theorem trim_of_repadded {s t : String} (h : Repadded s t) : trim t = trim s := by
  obtain ⟨core, front, back, front', back', hs, ht, hblank⟩ := h
  simp only [List.forall_mem_append] at hblank
  obtain ⟨⟨hfront, hback⟩, hfront', hback'⟩ := hblank
  rw [trim, trim, hs, ht, trimChars_padded hfront hback, trimChars_padded hfront' hback']

end Text

open Text (Recased Repadded)

/-! ## Opcodes -/

namespace Opcode

/-- A text is the name of one opcode at most. -/
theorem eq_of_sameLetters {s : String} {a b : Opcode} (ha : Text.sameLetters a.name s)
    (hb : Text.sameLetters b.name s) : a = b :=
  letters_injective ((Text.sameLetters_iff.1 ha).trans (Text.sameLetters_iff.1 hb).symm)

/-- Looking an opcode up among all opcodes in any order comes to the same. -/
theorem find?_of_perm {ops : List Opcode} (h : ops.Perm all) (s : String) :
    ops.find? (fun op => Text.sameLetters op.name s) = ofName? s := by
  cases hfound : ops.find? fun op => Text.sameLetters op.name s with
  | none =>
    rw [List.find?_eq_none] at hfound
    refine (Option.eq_none_iff_forall_not_mem.2 fun op hop => ?_).symm
    exact hfound op (h.mem_iff.2 (mem_all op)) (ofName?_eq_some_iff.1 hop)
  | some op =>
    have hname := List.find?_some hfound
    exact (ofName?_eq_some_iff.2 hname).symm

end Opcode

/-! ## Documents -/

namespace Document

/-- The kinds of arguments whose values are trimmed. -/
def paddedKinds : List String := ["int", "bool", "nil", "var", "label", "type"]

/-- The same argument with other blanks around its value, unless it is a string. -/
structure ArgumentRecord.Respelled (a b : ArgumentRecord) : Prop where
  kind : b.kind = a.kind
  value : b.value = a.value ∨ a.kind ∈ paddedKinds ∧ Repadded a.value b.value

/-- The same instruction with its opcode and its arguments spelled in another way. -/
structure InstructionRecord.Respelled (r s : InstructionRecord) : Prop where
  order : s.order = r.order
  opcode : ∃ name, Recased r.opcode name ∧ Repadded name s.opcode
  args : List.Forall₂ ArgumentRecord.Respelled r.args s.args

/-- The same document spelled in another way. -/
structure Respelled (d e : Document) : Prop where
  language : Option.Rel Recased d.language e.language
  instructions : List.Forall₂ InstructionRecord.Respelled d.instructions e.instructions

/-- In one place both documents have a string, but not the same one. -/
def StringsDiffer (d e : Document) : Prop :=
  ∃ (i j : Nat) (r s : InstructionRecord) (a b : ArgumentRecord),
    d.instructions[i]? = some r ∧ e.instructions[i]? = some s ∧ r.args[j]? = some a ∧
      s.args[j]? = some b ∧ a.kind = "string" ∧ b.kind = "string" ∧ a.value ≠ b.value

theorem ArgumentRecord.Respelled.ofText_eq {a b : ArgumentRecord} (h : a.Respelled b) :
    Argument.ofText b.kind b.value = Argument.ofText a.kind a.value := by
  obtain ⟨hkind, hvalue | ⟨hpadded, hvalue⟩⟩ := h
  · rw [hkind, hvalue]
  · have htrim := Text.trim_of_repadded hvalue
    rw [hkind]
    simp only [paddedKinds, List.mem_cons, List.not_mem_nil, or_false] at hpadded
    rcases hpadded with hk | hk | hk | hk | hk | hk <;> simp only [hk, Argument.ofText, htrim]

theorem InstructionRecord.Respelled.hasOpcode_iff {r s : InstructionRecord} (h : r.Respelled s)
    {op : Opcode} : s.HasOpcode op ↔ r.HasOpcode op := by
  obtain ⟨name, hcase, hpad⟩ := h.opcode
  rw [HasOpcode, HasOpcode, Text.trim_of_repadded hpad, Text.sameLetters_trim hcase]

/-- Spelled in another way, a record becomes the same instruction or is refused alike. -/
theorem InstructionRecord.Respelled.instruction_eq {r s : InstructionRecord}
    (h : r.Respelled s) :
    s.instruction.mapError Fault.kind = r.instruction.mapError Fault.kind := by
  by_cases hop : ∃ op, r.HasOpcode op
  · obtain ⟨op, hop⟩ := hop
    have hargs := Except.mapM_congr_of_forall₂ (h.args.imp fun _ _ ha => ha.ofText_eq)
    rw [instruction_of_opcode hop, instruction_of_opcode (h.hasOpcode_iff.2 hop), hargs, h.order]
  · have hunknown := not_exists.1 hop
    rw [instruction_of_unknown hunknown,
      instruction_of_unknown fun op hs => hunknown op (h.hasOpcode_iff.1 hs)]
    rfl

theorem Respelled.checkLanguage_eq {d e : Document} (h : d.Respelled e) :
    e.checkLanguage.mapError Fault.kind = d.checkLanguage.mapError Fault.kind := by
  have hlanguage := h.language
  unfold checkLanguage
  generalize d.language = x, e.language = y at hlanguage
  cases hlanguage with
  | none => rfl
  | @some name name' hcase =>
    have hsame : Text.sameLetters name' languageName = Text.sameLetters name languageName := by
      simp only [Text.sameLetters, Text.sameLetters_iff.1 (Text.recased_iff.1 hcase)]
    simp only [hsame]
    split <;> rfl

/-- Spelled in another way, a document is loaded as the same instructions or fails alike. -/
theorem Respelled.load_eq {d e : Document} (h : d.Respelled e) :
    e.load.mapError Fault.kind = d.load.mapError Fault.kind := by
  have hinstructions := Except.mapM_congr_of_forall₂
    (h.instructions.imp fun _ _ hr => hr.instruction_eq)
  simp only [load, Except.mapError_bind, Except.mapError_mapM, h.checkLanguage_eq, hinstructions]

/-- What a string is loaded as shows its value. -/
theorem getElem?_args_of_load {d : Document} {is : List Instruction} (h : d.load = .ok is)
    {i j : Nat} {r : InstructionRecord} {a : ArgumentRecord} (hr : d.instructions[i]? = some r)
    (ha : r.args[j]? = some a) (hkind : a.kind = "string") :
    ∃ ins, is[i]? = some ins ∧ ins.args[j]? = some (.const (.str a.value)) := by
  have hall := (load_eq_ok_iff (supported_of_load h)).1 h
  obtain ⟨ins, hins, hbecomes⟩ := exists_getElem?_of_forall₂ hall hr
  obtain ⟨x, hx, hread⟩ := exists_getElem?_of_forall₂ hbecomes.args ha
  rw [hkind] at hread
  cases hread
  exact ⟨ins, hins, hx⟩

theorem ne_of_stringsDiffer {d e : Document} {is js : List Instruction} (hd : d.load = .ok is)
    (he : e.load = .ok js) (h : d.StringsDiffer e) : is ≠ js := by
  rintro rfl
  obtain ⟨i, j, r, s, a, b, hr, hs, ha, hb, hka, hkb, hne⟩ := h
  obtain ⟨ins, hins, harg⟩ := getElem?_args_of_load hd hr ha hka
  obtain ⟨ins', hins', harg'⟩ := getElem?_args_of_load he hs hb hkb
  cases hins.symm.trans hins'
  have hconst := Option.some.inj (harg.symm.trans harg')
  simp only [Argument.const, Argument.symbol.injEq, Symbol.const.injEq, Value.str.injEq] at hconst
  exact hne hconst

/-- Documents that differ in their spelling only are loaded as the same instructions, or fail with
faults of one kind, and so do their texts. Documents with different strings in one place are not
loaded as the same instructions. A text without its blanks is the name of one opcode at most up to
the case of its letters, so that opcodes can be looked up in any order. -/
theorem loading_ignores_spelling :
    (∀ d e : Document, d.Respelled e →
      e.load.mapError Fault.kind = d.load.mapError Fault.kind ∧
      ∀ text text', Deserializes text d → Deserializes text' e →
        (loadText text').mapError Fault.kind = (loadText text).mapError Fault.kind) ∧
    (∀ (d e : Document) is js, d.load = .ok is → e.load = .ok js → d.StringsDiffer e → is ≠ js) ∧
    (∀ s (a b : Opcode), Recased a.name (Text.trim s) → Recased b.name (Text.trim s) → a = b) ∧
    ∀ (ops : List Opcode) s, ops.Perm Opcode.all →
      ops.find? (fun op => Text.sameLetters op.name s) = Opcode.ofName? s := by
  refine ⟨?_, fun d e is js => ne_of_stringsDiffer, ?_, fun ops s h => Opcode.find?_of_perm h s⟩
  · intro d e h
    refine ⟨h.load_eq, ?_⟩
    intro text text' hd he
    rw [loadText_of_deserializes hd, loadText_of_deserializes he]
    exact h.load_eq
  · intro s a b ha hb
    exact Opcode.eq_of_sameLetters (Text.recased_iff.1 ha) (Text.recased_iff.1 hb)

/-- Letters of the opcode change, and blanks around it and around two arguments; but a blank behind
a string is not left out. -/
theorem loading_ignores_spelling_blanks :
    let text := "[\"ippCODE24\",[[2,\"lt\",[[\"var\",\"GF@x\"],[\"int\",\"7\"],[\"string\",\"a\"]]]]]"
    let text' := "[\"IPPcode24\",[[2,\" Lt\\u2003\",[[\"var\",\"GF@x\\n\"],[\"int\",\"\\t 7\"],"
      ++ "[\"string\",\"a\"]]]]]"
    let longer := "[null,[[2,\"lt\",[[\"var\",\"GF@x\"],[\"int\",\"7\"],[\"string\",\"a \"]]]]]"
    ∃ is, loadText text = .ok is ∧ loadText text' = .ok is ∧ ∃ js, loadText longer = .ok js ∧
      is ≠ js := by
  intro text text' longer
  let r : InstructionRecord := ⟨2, "lt", [⟨"var", "GF@x"⟩, ⟨"int", "7"⟩, ⟨"string", "a"⟩]⟩
  let r' : InstructionRecord :=
    ⟨2, " Lt\u2003", [⟨"var", "GF@x\n"⟩, ⟨"int", "\t 7"⟩, ⟨"string", "a"⟩]⟩
  let s : InstructionRecord := ⟨2, "lt", [⟨"var", "GF@x"⟩, ⟨"int", "7"⟩, ⟨"string", "a "⟩]⟩
  let d : Document := ⟨some "ippCODE24", [r]⟩
  let d' : Document := ⟨some "IPPcode24", [r']⟩
  let e : Document := ⟨none, [s]⟩
  have hd : Deserializes text d := ofText_eq_ok_iff.1 (by decide +kernel)
  have hd' : Deserializes text' d' := ofText_eq_ok_iff.1 (by decide +kernel)
  have he : Deserializes longer e := ofText_eq_ok_iff.1 (by decide +kernel)
  have hrespelled : d.Respelled d' := by
    refine ⟨.some (Text.recased_iff.2 (by decide +kernel)), .cons ⟨rfl, ?_, ?_⟩ .nil⟩
    · exact ⟨"Lt", Text.recased_iff.2 (by decide +kernel), ['L', 't'], [], [], [' '], ['\u2003'],
        by decide +kernel, by decide +kernel, List.all_eq_true.1 (by decide)⟩
    · refine .cons ⟨rfl, .inr ⟨by decide, ?_⟩⟩ (.cons ⟨rfl, .inr ⟨by decide, ?_⟩⟩ (.cons ?_ .nil))
      · exact ⟨['G', 'F', '@', 'x'], [], [], [], ['\n'], by decide +kernel, by decide +kernel,
          List.all_eq_true.1 (by decide)⟩
      · exact ⟨['7'], [], [], ['\t', ' '], [], by decide +kernel, by decide +kernel,
          List.all_eq_true.1 (by decide)⟩
      · exact ⟨rfl, .inl rfl⟩
  have hdiffer : d.StringsDiffer e :=
    ⟨0, 2, r, s, ⟨"string", "a"⟩, ⟨"string", "a "⟩, rfl, rfl, rfl, rfl, rfl, rfl, by decide⟩
  obtain ⟨hspelling, hstrings, -⟩ := loading_ignores_spelling
  let is : List Instruction := [⟨2, .lt, [.var ⟨.gf, "x"⟩, .const (.int 7), .const (.str "a")]⟩]
  let js : List Instruction := [⟨2, .lt, [.var ⟨.gf, "x"⟩, .const (.int 7), .const (.str "a ")]⟩]
  have hload : d.load = .ok is := by decide +kernel
  have hload' : e.load = .ok js := by decide +kernel
  have his : loadText text = .ok is := (loadText_of_deserializes hd).trans hload
  have hjs : loadText longer = .ok js := (loadText_of_deserializes he).trans hload'
  have hkinds := (hspelling d d' hrespelled).2 text text' hd hd'
  rw [his] at hkinds
  exact ⟨is, his, Except.mapError_eq_ok.1 hkinds, js, hjs, hstrings d e is js hload hload' hdiffer⟩

end Document

end Ippcode
