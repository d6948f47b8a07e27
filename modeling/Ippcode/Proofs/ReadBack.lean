import Ippcode.Proofs.Lines

/-! # Reading back what was written

Values that are written with a newline behind each of them make one line each, for no written form
has a newline in it, and a newline is a byte that no other character has in UTF-8. Read as values of
their types, the lines give the values back. The one thing that is lost is a carriage return at the
end of a string, which is taken for a part of the newline.
-/
namespace Ippcode

/-- Values whose written form is the text of a line. -/
def Value.FitsLine : Value → Prop
  | .int _ | .bool _ => True
  | .str s => '\n' ∉ s.toList ∧ s.toList.getLast? ≠ some '\r'
  | .nil | .uninit => False

instance : (v : Value) → Decidable v.FitsLine
  | .int _ | .bool _ => inferInstanceAs (Decidable True)
  | .str s => inferInstanceAs (Decidable ('\n' ∉ s.toList ∧ s.toList.getLast? ≠ some '\r'))
  | .nil | .uninit => inferInstanceAs (Decidable False)

theorem DataType.name_injective : Function.Injective name := by
  intro a b h
  rw [← Option.some.injEq, ← ofName?_name a, h, ofName?_name]

namespace Text

open Input (newline)

/-! ## Bytes of texts -/

theorem bytes_append (s t : String) : bytes (s ++ t) = bytes s ++ bytes t := by
  rw [bytes_eq_flatMap, bytes_eq_flatMap, bytes_eq_flatMap, String.toList_append,
    List.flatMap_append]

theorem bytes_join (ts : List String) : bytes (String.join ts) = ts.flatMap bytes := by
  induction ts with
  | nil => rfl
  | cons t ts ih => rw [String.join_cons, bytes_append, ih, List.flatMap_cons]

theorem le_of_mem_units {lead k n : Nat} {b : UInt8} (hlead : 0x80 ≤ lead)
    (hlt : lead + top k n < 256) (h : b ∈ units lead k n) : 0x80 ≤ b.toNat := by
  induction k generalizing n with
  | zero =>
    rw [units, List.mem_singleton] at h
    rw [top] at hlt
    rw [h, UInt8.toNat_ofNat']
    omega
  | succ k ih =>
    rw [units, List.mem_append, List.mem_singleton] at h
    rcases h with h | rfl
    · exact ih hlt h
    · rw [UInt8.toNat_ofNat']
      omega

/-- No other character has the byte of a newline. -/
theorem newline_not_mem_encode {c : Char} (h : c ≠ '\n') :
    newline ∉ String.utf8EncodeChar c := by
  intro hmem
  obtain ⟨k, lead, hwidth, hunits⟩ := exists_width c
  rw [hunits] at hmem
  have hlt := hwidth.lt
  cases hwidth with
  | one hc =>
    rw [units, List.mem_singleton] at hmem
    have hten : 10 = c.toNat := by
      have hbyte := congrArg UInt8.toNat hmem
      rw [UInt8.toNat_ofNat', Nat.zero_add, Nat.mod_eq_of_lt (by omega)] at hbyte
      exact hbyte
    exact h (Char.toNat_inj.1 hten.symm)
  | two | three | four =>
    -- of a character that takes more bytes, none is below 0x80
    exact absurd (le_of_mem_units (by omega) hlt hmem) (by decide)

theorem newline_not_mem_bytes {s : String} (h : '\n' ∉ s.toList) : newline ∉ bytes s := by
  rw [bytes_eq_flatMap, List.mem_flatMap]
  rintro ⟨c, hc, hmem⟩
  refine newline_not_mem_encode ?_ hmem
  rintro rfl
  exact h hc

end Text

namespace Input

variable {v : Value} {vs : List Value} {type : DataType} {types : List DataType} {s : String}

/-- The input that values make when each is written to a sink with a newline behind it. -/
def written (vs : List Value) : Input :=
  ⟨(Writer.after (Sink.empty none) (vs.flatMap fun v => [v, .str "\n"])).contents.data.toList⟩

/-! ## Lines that were written -/

theorem bytes_written (vs : List Value) :
    (written vs).bytes = vs.flatMap fun v => Text.bytes (v.text ++ "\n") := by
  have htexts : (vs.flatMap fun v => [v, .str "\n"]).map Value.text =
      vs.flatMap fun v => [v.text, "\n"] := List.map_flatMap
  have hsink := Sink.after_unlimited (s := .empty none) rfl (vs.flatMap fun v => [v, .str "\n"])
  have hbytes : (written vs).bytes =
      Text.bytes (String.join (vs.flatMap fun v => [v.text, "\n"])) := by
    rw [written, hsink, htexts]
    exact congrArg (fun bs : ByteArray => bs.data.toList) ByteArray.empty_append
  rw [hbytes, Text.bytes_join, List.flatMap_assoc]
  refine List.flatMap_congr fun v _ => ?_
  rw [List.flatMap_cons, List.flatMap_singleton, Text.bytes_append]

theorem bytes_append_newline (s : String) : Text.bytes (s ++ "\n") = Text.bytes s ++ [newline] :=
  Text.bytes_append s "\n"

/-- Texts without newlines are lines when newlines are put behind them. -/
theorem lines_written (h : ∀ v ∈ vs, '\n' ∉ v.text.toList) :
    (written vs).lines = vs.map fun v => Text.bytes (v.text ++ "\n") := by
  have hlines : lines ⟨vs.flatMap fun v => Text.bytes (v.text ++ "\n")⟩ =
      vs.map fun v => Text.bytes (v.text ++ "\n") := by
    induction vs with
    | nil => rfl
    | cons v vs ih =>
      obtain ⟨hfirst, hrest⟩ := List.forall_mem_cons.1 h
      rw [List.flatMap_cons, bytes_append_newline, List.append_assoc, List.singleton_append,
        lines_append_newline (Text.newline_not_mem_bytes hfirst), ih hrest, List.map_cons,
        bytes_append_newline]
  rw [← hlines, ← bytes_written]

/-! ## Values that are read back -/

theorem text_of_fitsLine (h : v.FitsLine) :
    '\n' ∉ v.text.toList ∧ v.text.toList.getLast? ≠ some '\r' := by
  cases v with
  | int n =>
    refine ⟨fun hc => ?_, fun hc => ?_⟩
    · exact Text.Decimal.not_isBlank_of_mem_render hc (by decide)
    · exact Text.Decimal.not_isBlank_of_mem_render (List.mem_of_getLast? hc) (by decide)
  | bool b => cases b <;> decide +kernel
  | str s => exact h
  | nil | uninit => cases h

theorem convert_text (h : v.FitsLine) (htype : type.name = v.typeName) :
    convert type v.text = some v := by
  cases v with
  | int n =>
    obtain rfl : type = .int := DataType.name_injective htype
    rw [convert, Value.text, Text.Decimal.trim_render, Text.Decimal.parse?_render, Option.map_some]
  | bool b =>
    obtain rfl : type = .bool := DataType.name_injective htype
    cases b <;> decide +kernel
  | str s =>
    obtain rfl : type = .string := DataType.name_injective htype
    rfl
  | nil | uninit => cases h

theorem lineValue?_written (h : v.FitsLine) (htype : type.name = v.typeName) :
    lineValue? type (Text.bytes (v.text ++ "\n")) = some v := by
  rw [lineValue?, text?_of_lineText (.ended (text_of_fitsLine h).2), Option.bind_some,
    convert_text h htype]

theorem answers_written (h : ∀ v ∈ vs, v.FitsLine)
    (htypes : types.map DataType.name = vs.map Value.typeName) (more : List DataType) :
    Reader.answers (written vs) (types ++ more) = vs.map some ++ more.map fun _ => none := by
  have hlength : types.length = vs.length := by
    simpa only [List.length_map] using congrArg List.length htypes
  apply List.ext_getElem?
  intro k
  rw [getElem?_answers, lines_written fun v hv => (text_of_fitsLine (h v hv)).1, List.getElem?_map,
    List.getElem?_append, List.getElem?_append, List.length_map, hlength]
  -- a request is among those for the values, or it comes when all lines are used up
  by_cases hk : k < vs.length
  · have hv : vs[k]? = some vs[k] := List.getElem?_eq_getElem hk
    have htype : types[k]? = some types[k] := List.getElem?_eq_getElem (hlength ▸ hk)
    have hname : types[k].name = vs[k].typeName := by
      have hmap := congrArg (fun l : List String => l[k]?) htypes
      simpa only [List.getElem?_map, htype, hv, Option.map_some, Option.some.injEq] using hmap
    rw [if_pos hk, if_pos hk, List.getElem?_map, hv, htype]
    exact congrArg some (lineValue?_written (h _ (List.getElem_mem hk)) hname)
  · rw [if_neg hk, if_neg hk, List.getElem?_eq_none (Nat.not_lt.1 hk), List.getElem?_map]
    rfl

/-- A carriage return at the end of a text is taken for a part of the newline. -/
theorem text?_of_return {cs : List Char} (h : s.toList = cs ++ ['\r']) :
    text? (Text.bytes (s ++ "\n")) = some (String.ofList cs) := by
  have hline : s ++ "\n" = String.ofList cs ++ "\r\n" := by
    simp only [← String.toList_inj, String.toList_append, String.toList_ofList, h,
      List.append_assoc]
    rfl
  rw [hline, text?_of_lineText (.returned _)]

theorem lineValue?_of_return {cs : List Char} (h : s.toList = cs ++ ['\r']) :
    lineValue? .string (Text.bytes (s ++ "\n")) = some (.str (String.ofList cs)) := by
  rw [lineValue?, text?_of_return h]
  rfl

theorem answers_written_string_iff (h : '\n' ∉ s.toList) (more : List DataType) :
    Reader.answers (written [.str s]) (.string :: more) =
        some (.str s) :: more.map (fun _ => none) ↔
      s.toList.getLast? ≠ some '\r' := by
  constructor
  · intro hback hreturn
    obtain ⟨cs, hcs⟩ := List.getLast?_eq_some_iff.1 hreturn
    have hfirst := getElem?_answers (written [.str s]) (.string :: more) 0
    have hlines : (written [.str s]).lines = [Text.bytes (s ++ "\n")] :=
      lines_written (List.forall_mem_singleton.2 h)
    rw [hback, hlines] at hfirst
    have hread : some (.str s) = lineValue? .string (Text.bytes (s ++ "\n")) :=
      Option.some.inj hfirst
    rw [lineValue?_of_return hcs] at hread
    obtain rfl := Value.str.inj (Option.some.inj hread)
    rw [String.toList_ofList] at hcs
    exact absurd (congrArg List.length hcs) (by simp)
  · intro hreturn
    have hfits : ∀ v ∈ [Value.str s], v.FitsLine := List.forall_mem_singleton.2 ⟨h, hreturn⟩
    have htypes : [DataType.string].map DataType.name = [Value.str s].map Value.typeName := rfl
    exact answers_written hfits htypes more

/-- Integers, booleans and strings that are the text of a line are read back when each is written
with a newline behind it to a sink without a limit, where no write fails: requests of their types
are answered by the values in their order, and all further requests by nothing. A single string
without a newline is read back exactly if it does not end with a carriage return. -/
theorem written_values_read_back :
    Writer.Unfailing (Sink.empty none) ∧
    (∀ (vs : List Value) (types more : List DataType), (∀ v ∈ vs, v.FitsLine) →
      types.map DataType.name = vs.map Value.typeName →
      Reader.answers (written vs) (types ++ more) = vs.map some ++ more.map fun _ => none) ∧
    ∀ (s : String) (more : List DataType), '\n' ∉ s.toList →
      (Reader.answers (written [.str s]) (.string :: more) =
          some (.str s) :: more.map (fun _ => none) ↔
        s.toList.getLast? ≠ some '\r') := by
  refine ⟨Sink.unfailing_of_unlimited rfl, ?_, ?_⟩
  · intro vs types more h htypes
    exact answers_written h htypes more
  · intro s more h
    exact answers_written_string_iff h more

/-- The least integer, an empty string and one with blanks and a carriage return that is not its
last character are read back, but a carriage return alone is not. -/
theorem written_values_read_back_blanks :
    (written [.int Int64.minValue, .str "", .bool false, .str " \r é "]).bytes =
        Text.bytes "-9223372036854775808\n\nfalse\n \r é \n" ∧
      Reader.answers (written [.int Int64.minValue, .str "", .bool false, .str " \r é "])
          [.int, .string, .bool, .string, .int, .string] =
        [some (.int Int64.minValue), some (.str ""), some (.bool false), some (.str " \r é "),
          none, none] ∧
      Reader.answers (written [.str "\r"]) [.string] ≠ [some (.str "\r")] := by
  obtain ⟨_, hback, hstring⟩ := written_values_read_back
  have hfits : ∀ v ∈ [Value.int Int64.minValue, .str "", .bool false, .str " \r é "],
      v.FitsLine := by decide +kernel
  refine ⟨by decide +kernel, hback _ [.int, .string, .bool, .string] [.int, .string] hfits rfl, ?_⟩
  intro h
  exact (hstring "\r" [] (by decide +kernel)).1 h (by decide +kernel)

end Input

end Ippcode
