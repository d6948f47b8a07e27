import Ippcode.Proofs.ReadBack

/-! # Integers in documents and in input

A text denotes an integer if it is a numeral of it with blanks around it or not, and 64 bits are
enough for the integer. Documents and lines of input are read by this one rule: the text of an
argument and the line with the same text give the same integer, or neither of them gives one. What
an integer is written as, in output and in dumps, denotes it.
-/
namespace Ippcode

open Text (trim Trims trim_eq_iff)

namespace Text.Decimal

variable {text : String} {z : Int}

/-- The text is a numeral of the integer apart from blanks at its ends, and the integer is one of 64
bits. -/
def Denotes (text : String) (z : Int) : Prop :=
  (∃ t, Trims text t ∧ Numeral t z) ∧ -2 ^ 63 ≤ z ∧ z ≤ 2 ^ 63 - 1

theorem inRange_iff : InRange z ↔ -2 ^ 63 ≤ z ∧ z ≤ 2 ^ 63 - 1 := by
  have hmin : Int64.minValue.toInt = -2 ^ 63 := by decide
  have hmax : Int64.maxValue.toInt = 2 ^ 63 - 1 := by decide
  rw [InRange, hmin, hmax]

theorem parse?_trim_iff {n : Int64} : parse? (trim text) = some n ↔ Denotes text n.toInt := by
  rw [parse?_eq_some_iff, Denotes, ← inRange_iff]
  constructor
  · intro h
    exact ⟨⟨_, Text.trims_trim text, h⟩, inRange_toInt n⟩
  · rintro ⟨⟨t, ht, hnumeral⟩, -⟩
    rwa [trim_eq_iff.2 ht]

theorem exists_toInt_of_denotes (h : Denotes text z) : ∃ n : Int64, n.toInt = z :=
  ⟨Int64.ofInt z, toInt_ofInt_of_inRange (inRange_iff.2 h.2)⟩

theorem parse?_trim_eq_none_iff : parse? (trim text) = none ↔ ¬ ∃ z, Denotes text z := by
  rw [Option.eq_none_iff_forall_ne_some]
  constructor
  · rintro h ⟨z, hz⟩
    obtain ⟨n, rfl⟩ := exists_toInt_of_denotes hz
    exact h n (parse?_trim_iff.2 hz)
  · intro h n hn
    exact h ⟨n.toInt, parse?_trim_iff.1 hn⟩

end Text.Decimal

open Text.Decimal

namespace Argument

variable {text : String}

theorem ofText_int_eq_ok_iff {n : Int64} :
    ofText "int" text = .ok (.const (.int n)) ↔ parse? (trim text) = some n := by
  change ofInt (trim text) = _ ↔ _
  unfold ofInt
  cases parse? (trim text) <;> simp [const]

theorem exists_ofText_int_error_iff :
    (∃ f, ofText "int" text = .error f) ↔ parse? (trim text) = none := by
  change (∃ f, ofInt (trim text) = .error f) ↔ _
  unfold ofInt
  cases parse? (trim text) <;> simp

theorem exists_ofText_int_iff {z : Int} :
    (∃ n : Int64, n.toInt = z ∧ ofText "int" text = .ok (.const (.int n))) ↔ Denotes text z := by
  constructor
  · rintro ⟨n, rfl, hn⟩
    exact parse?_trim_iff.1 (ofText_int_eq_ok_iff.1 hn)
  · intro hz
    obtain ⟨n, rfl⟩ := exists_toInt_of_denotes hz
    exact ⟨n, rfl, ofText_int_eq_ok_iff.2 (parse?_trim_iff.2 hz)⟩

theorem exists_ofText_int_refused_iff :
    (∃ f, ofText "int" text = .error f ∧ f.kind = .programStructure) ↔ ¬ ∃ z, Denotes text z := by
  rw [← parse?_trim_eq_none_iff, ← exists_ofText_int_error_iff]
  constructor
  · rintro ⟨f, hf, -⟩
    exact ⟨f, hf⟩
  · rintro ⟨f, hf⟩
    exact ⟨f, hf, kind_of_ofText hf⟩

end Argument

namespace Input

variable {l : String}

theorem trim_of_return {cs : List Char} (h : l.toList = cs ++ ['\r']) :
    trim (String.ofList cs) = trim l := by
  have hblank : ∀ c ∈ ['\r'], Text.isBlank c := List.forall_mem_singleton.2 (by decide)
  have hpadded : Text.trimChars ([] ++ cs ++ ['\r']) = Text.trimChars cs :=
    Text.trimChars_padded (by simp) hblank
  rw [trim, trim, String.toList_ofList, h]
  exact congrArg String.ofList hpadded.symm

theorem lineValue?_int (l : String) :
    lineValue? .int (Text.bytes (l ++ "\n")) = (parse? (trim l)).map .int := by
  by_cases hreturn : l.toList.getLast? = some '\r'
  · -- the carriage return is lost, but trimming would have removed it
    obtain ⟨cs, hcs⟩ := List.getLast?_eq_some_iff.1 hreturn
    rw [lineValue?, text?_of_return hcs, Option.bind_some, convert, trim_of_return hcs]
  · rw [lineValue?, text?_of_lineText (.ended hreturn), Option.bind_some, convert]

/-- A request is answered by the text in front of the first newline, and what stands behind the
newline is left. -/
theorem read_append_newline (h : '\n' ∉ l.toList) (type : DataType) (rest : List UInt8) :
    read type ⟨Text.bytes (l ++ "\n") ++ rest⟩ =
      (lineValue? type (Text.bytes (l ++ "\n")), ⟨rest⟩) := by
  have hlines : lines ⟨Text.bytes (l ++ "\n") ++ rest⟩ =
      Text.bytes (l ++ "\n") :: lines ⟨rest⟩ := by
    rw [bytes_append_newline, List.append_assoc, List.singleton_append,
      lines_append_newline (Text.newline_not_mem_bytes h)]
  rw [read_eq, behind, hlines, List.drop_succ_cons, List.drop_zero, flatten_lines]
  rfl

theorem read_int (h : '\n' ∉ l.toList) (rest : List UInt8) :
    Reader.read .int (⟨Text.bytes (l ++ "\n") ++ rest⟩ : Input) =
      ((parse? (trim l)).map .int, ⟨rest⟩) := by
  rw [← lineValue?_int]
  exact read_append_newline h .int rest

end Input

theorem Value.display_int (n : Int64) : (Value.int n).display = "int@" ++ render n := by
  have htype : "int" ++ "@" = "int@" := rfl
  exact congrArg (· ++ render n) htype

/-- An argument is read as an integer exactly if its text denotes it, and is a fault of structure if
its text denotes none. A line of input, wherever it stands, is read as the integer that an argument
with the same text is read as, and as none if that is a fault. Every integer has a numeral that it
is written as to a sink, and in a dump behind its type, and an argument with this text is read as
the integer. -/
theorem integers_read_alike :
    (∀ text : String,
      (∀ z : Int, (∃ n : Int64, n.toInt = z ∧ Argument.ofText "int" text = .ok (.const (.int n))) ↔
        Denotes text z) ∧
      ((∃ f, Argument.ofText "int" text = .error f ∧ f.kind = .programStructure) ↔
        ¬ ∃ z, Denotes text z)) ∧
    (∀ (l : String) (rest : List UInt8), '\n' ∉ l.toList →
      (∀ n, Reader.read .int (⟨Text.bytes (l ++ "\n") ++ rest⟩ : Input) =
          (some (.int n), ⟨rest⟩) ↔ Argument.ofText "int" l = .ok (.const (.int n))) ∧
      (Reader.read .int (⟨Text.bytes (l ++ "\n") ++ rest⟩ : Input) = (none, ⟨rest⟩) ↔
        ∃ f, Argument.ofText "int" l = .error f)) ∧
    ∀ n : Int64, ∃ text, Numeral text n.toInt ∧
      (∀ s : Sink, s.limit = none →
        Writer.write s (.int n) = (⟨s.contents ++ text.toUTF8, none⟩, .ok ())) ∧
      (Value.int n).display = "int@" ++ text ∧
      Argument.ofText "int" text = .ok (.const (.int n)) := by
  refine ⟨fun text => ⟨fun z => ?_, ?_⟩, fun l rest hl => ⟨fun n => ?_, ?_⟩, fun n => ?_⟩
  · exact Argument.exists_ofText_int_iff
  · exact Argument.exists_ofText_int_refused_iff
  · rw [Input.read_int hl, Argument.ofText_int_eq_ok_iff]
    cases parse? (trim l) <;> simp
  · rw [Input.read_int hl, Argument.exists_ofText_int_error_iff]
    cases parse? (trim l) <;> simp
  · refine ⟨render n, parse?_eq_some_iff.1 (parse?_render n), ?_, Value.display_int n, ?_⟩
    · exact fun s hs => Sink.write_unlimited hs (render n)
    · rw [Argument.ofText_int_eq_ok_iff, trim_render, parse?_render]

/-- The least integer is read with a blank in front of it, zeros behind its sign and a carriage
return that its line loses. The one after the greatest is read neither as an argument nor from a
line. -/
theorem integers_read_alike_bounds :
    let l := "\u2003-0009223372036854775808\r"
    let m := "+9223372036854775808"
    ('\n' ∉ l.toList ∧ Denotes l (-2 ^ 63) ∧
      Reader.read .int (⟨Text.bytes (l ++ "\n") ++ Text.bytes m⟩ : Input) =
        (some (.int Int64.minValue), ⟨Text.bytes m⟩)) ∧
      ('\n' ∉ m.toList ∧ (¬ ∃ z, Denotes m z) ∧
        Reader.read .int (⟨Text.bytes (m ++ "\n") ++ []⟩ : Input) = (none, ⟨[]⟩)) ∧
      ∃ text, (Value.int Int64.minValue).display = "int@" ++ text ∧
        Writer.write (Sink.empty none) (.int Int64.minValue) =
          (⟨.empty ++ text.toUTF8, none⟩, .ok ()) ∧
        Argument.ofText "int" text = .ok (.const (.int Int64.minValue)) := by
  intro l m
  obtain ⟨htexts, hlines, hwritten⟩ := integers_read_alike
  have hl : '\n' ∉ l.toList := by decide +kernel
  have hm : '\n' ∉ m.toList := by decide +kernel
  have hread : Argument.ofText "int" l = .ok (.const (.int Int64.minValue)) := by decide +kernel
  have hrefused : Argument.ofText "int" m = .error (.invalidLiteral "int" m) := by decide +kernel
  refine ⟨⟨hl, ?_, ?_⟩, ⟨hm, ?_, ?_⟩, ?_⟩
  · exact ((htexts l).1 (-2 ^ 63)).1 ⟨Int64.minValue, by decide, hread⟩
  · exact ((hlines l (Text.bytes m) hl).1 Int64.minValue).2 hread
  · exact (htexts m).2.1 ⟨_, hrefused, rfl⟩
  · exact (hlines m [] hm).2.2 ⟨_, hrefused⟩
  · obtain ⟨text, -, hwrite, hdisplay, hback⟩ := hwritten Int64.minValue
    exact ⟨text, hdisplay, hwrite (.empty none) rfl, hback⟩

end Ippcode
