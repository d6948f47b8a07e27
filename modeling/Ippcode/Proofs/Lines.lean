import Ippcode.Proofs.ByteOrder
import Ippcode.Proofs.Numerals
import Ippcode.Proofs.Unread

/-! # Requests and lines

Input is split behind each newline, and each request is answered by one line: the first request by
the first line, the next one by the next, whatever types are requested. What a line answers depends
on the line and on the type only. The definitions here say what the lines are, what the text of a
line is and what it gives to a request, without regard to how input is read; the main statement is
that requests are answered in this way and in no other.
-/
namespace Ippcode

/-- The answers of a reader to requests that are made one by one. -/
def Reader.answers {ρ : Type} [Reader ρ] (r : ρ) : List DataType → List (Option Value)
  | [] => []
  | type :: types => (Reader.read type r).1 :: answers (Reader.read type r).2 types

namespace Text

theorem fromUTF8?_eq_some_iff {bs : List UInt8} {s : String} :
    String.fromUTF8? bs.toByteArray = some s ↔ bytes s = bs := by
  have hbytes : bytes s = bs ↔ s.toByteArray = bs.toByteArray := by
    constructor
    · rintro rfl
      apply ByteArray.ext
      apply Array.ext'
      rw [List.toList_data_toByteArray, bytes, String.toUTF8_eq_toByteArray]
    · intro h
      rw [bytes, String.toUTF8_eq_toByteArray, h, List.toList_data_toByteArray]
  rw [hbytes, String.fromUTF8?]
  split
  next hvalid =>
    rw [Option.some.injEq, ← String.toByteArray_inj, eq_comm]
    rfl
  next hvalid =>
    refine ⟨fun h => (by cases h), fun h => ?_⟩
    exact absurd (h ▸ s.isValidUTF8) hvalid

end Text

namespace Input

open Text (trim Trims trims_trim trim_eq_iff)
open Text.Decimal (Numeral)

/-- The lines that bytes are split into: a line ends with its newline, and what is left behind the
last newline is a line too unless it is empty. -/
inductive SplitInto : List UInt8 → List (List UInt8) → Prop
  | nil : SplitInto [] []
  | rest {line : List UInt8} (h : newline ∉ line) (hne : line ≠ []) : SplitInto line [line]
  | line {line bytes : List UInt8} {lines : List (List UInt8)} (h : newline ∉ line)
      (hrest : SplitInto bytes lines) :
      SplitInto (line ++ newline :: bytes) ((line ++ [newline]) :: lines)

/-- The text of a line: it stands in front of a newline, or of a carriage return and a newline, or
is all of the line if that has no newline. -/
inductive LineText : List UInt8 → String → Prop
  | returned (l : String) : LineText (Text.bytes (l ++ "\r\n")) l
  | ended {l : String} (h : l.toList.getLast? ≠ some '\r') : LineText (Text.bytes (l ++ "\n")) l
  | unended {l : String} (h : l.toList.getLast? ≠ some '\n') : LineText (Text.bytes l) l

/-- What a text gives to a request. Blanks around a boolean or an integer make no difference. -/
inductive Gives : DataType → String → Option Value → Prop
  | string (l : String) : Gives .string l (some (.str l))
  | bool {l t : String} {b : Bool} (ht : Trims l t) (h : b ↔ t.toLower = "true") :
      Gives .bool l (some (.bool b))
  | int {l t : String} {n : Int64} (ht : Trims l t) (h : Numeral t n.toInt) :
      Gives .int l (some (.int n))
  | notInt {l t : String} (ht : Trims l t) (h : ¬ ∃ n : Int64, Numeral t n.toInt) :
      Gives .int l none

/-- What the next line, if there is one, gives to a request. -/
inductive Answers (type : DataType) : Option (List UInt8) → Option Value → Prop
  | exhausted : Answers type none none
  | notText {line : List UInt8} (h : ¬ ∃ s, Text.bytes s = line) : Answers type (some line) none
  | text {line : List UInt8} {l : String} {a : Option Value} (hl : LineText line l)
      (ha : Gives type l a) : Answers type (some line) a

/-! ## Lines -/

theorem splitInto_linesFrom {begun : List UInt8} (h : newline ∉ begun) (bytes : List UInt8) :
    SplitInto (begun.reverse ++ bytes) (linesFrom begun bytes) := by
  induction bytes generalizing begun with
  | nil =>
    cases begun with
    | nil => exact .nil
    | cons b begun =>
      rw [List.append_nil]
      exact .rest (mt List.mem_reverse.1 h) (by simp)
  | cons b bytes ih =>
    by_cases hb : b = newline
    · subst hb
      simp only [linesFrom, if_true, List.reverse_cons]
      exact .line (mt List.mem_reverse.1 h) (ih List.not_mem_nil)
    · have hbegun : newline ∉ b :: begun := List.not_mem_cons_of_ne_of_not_mem (Ne.symm hb) h
      have hsplit := ih hbegun
      rw [List.reverse_cons, List.append_assoc] at hsplit
      rw [linesFrom, if_neg hb]
      exact hsplit

theorem ne_newline {line : List UInt8} (h : newline ∉ line) : ∀ b ∈ line, b ≠ newline := by
  rintro b hb rfl
  exact h hb

theorem lines_append_newline {line : List UInt8} (h : newline ∉ line) (rest : List UInt8) :
    lines ⟨line ++ newline :: rest⟩ = (line ++ [newline]) :: lines ⟨rest⟩ := by
  simp only [lines]
  rw [linesFrom_append (ne_newline h)]
  simp [linesFrom]

/-- There is one way to split bytes into lines. -/
theorem splitInto_iff {i : Input} {ls : List (List UInt8)} :
    SplitInto i.bytes ls ↔ ls = i.lines := by
  constructor
  · obtain ⟨bytes⟩ := i
    change SplitInto bytes ls → _
    intro h
    induction h with
    | nil => rfl
    | @rest line h hne =>
      have hlines : lines ⟨line⟩ = linesFrom (line.reverse ++ []) [] := by
        rw [← linesFrom_append (ne_newline h), List.append_nil]
        rfl
      rw [hlines]
      simp [linesFrom, hne]
    | line h _ ih => rw [lines_append_newline h, ← ih]
  · rintro rfl
    exact splitInto_linesFrom List.not_mem_nil i.bytes

/-! ## The text of a line -/

theorem chomp_returned (cs : List Char) : chomp (cs ++ ['\r', '\n']) = cs := by
  simp [chomp]

theorem chomp_ended {cs : List Char} (h : cs.getLast? ≠ some '\r') :
    chomp (cs ++ ['\n']) = cs := by
  rw [← List.head?_reverse] at h
  rw [chomp, List.reverse_append, List.reverse_singleton, List.singleton_append]
  split
  next rest heq =>
    rw [(List.cons.inj heq).2] at h
    exact absurd rfl h
  next rest _ heq => rw [← (List.cons.inj heq).2, List.reverse_reverse]
  next hne => exact absurd rfl (hne _)

theorem chomp_unended {cs : List Char} (h : cs.getLast? ≠ some '\n') : chomp cs = cs := by
  rw [← List.head?_reverse] at h
  rw [chomp]
  split
  next rest heq =>
    rw [heq] at h
    exact absurd rfl h
  next rest _ heq =>
    rw [heq] at h
    exact absurd rfl h
  next => rfl

theorem text?_of_chomp {s l : String} (h : chomp s.toList = l.toList) :
    text? (Text.bytes s) = some l := by
  rw [text?, Text.fromUTF8?_eq_some_iff.2 rfl, Option.map_some, h, String.ofList_toList]

theorem text?_of_lineText {line : List UInt8} {l : String} (h : LineText line l) :
    text? line = some l := by
  cases h with
  | returned =>
    apply text?_of_chomp
    rw [String.toList_append]
    exact chomp_returned l.toList
  | ended h =>
    apply text?_of_chomp
    rw [String.toList_append]
    exact chomp_ended h
  | unended h => exact text?_of_chomp (chomp_unended h)

theorem exists_lineText (s : String) : ∃ l, LineText (Text.bytes s) l := by
  by_cases hnewline : s.toList.getLast? = some '\n'
  · obtain ⟨front, hfront⟩ := List.getLast?_eq_some_iff.1 hnewline
    -- a carriage return counts only in front of a newline
    by_cases hreturn : front.getLast? = some '\r'
    · obtain ⟨cs, rfl⟩ := List.getLast?_eq_some_iff.1 hreturn
      have hs : s = String.ofList cs ++ "\r\n" := by
        rw [← String.toList_inj, hfront, String.toList_append, String.toList_ofList]
        exact List.append_assoc cs _ _
      rw [hs]
      exact ⟨_, .returned _⟩
    · have hs : s = String.ofList front ++ "\n" := by
        rw [← String.toList_inj, hfront, String.toList_append, String.toList_ofList]
        rfl
      rw [hs]
      exact ⟨_, .ended (by rwa [String.toList_ofList])⟩
  · exact ⟨s, .unended hnewline⟩

theorem text?_eq_some_iff {line : List UInt8} {l : String} :
    text? line = some l ↔ LineText line l := by
  refine ⟨fun h => ?_, text?_of_lineText⟩
  obtain ⟨s, hs, _⟩ := Option.map_eq_some_iff.1 h
  obtain rfl := Text.fromUTF8?_eq_some_iff.1 hs
  obtain ⟨l', hl'⟩ := exists_lineText s
  have hsame : some l' = some l := (text?_of_lineText hl').symm.trans h
  rwa [Option.some.inj hsame] at hl'

theorem text?_eq_none_iff {line : List UInt8} :
    text? line = none ↔ ¬ ∃ s, Text.bytes s = line := by
  rw [text?, Option.map_eq_none_iff, Option.eq_none_iff_forall_not_mem, not_exists]
  exact forall_congr' fun s => not_congr Text.fromUTF8?_eq_some_iff

/-! ## What lines give -/

theorem sameLetters_true_iff {s : String} : Text.sameLetters s "true" ↔ s.toLower = "true" := by
  have hlower : "true".toList.map Char.toLower = "true".toList := by decide +kernel
  have htoLower : s.toLower.toList = s.toList.map Char.toLower := String.toList_map
  rw [Text.sameLetters_iff, hlower, ← htoLower, String.toList_inj]

theorem gives_convert (type : DataType) (l : String) : Gives type l (convert type l) := by
  cases type with
  | string => exact .string l
  | bool => exact .bool (trims_trim l) sameLetters_true_iff
  | int =>
    rw [convert]
    cases hn : Text.Decimal.parse? (trim l) with
    | some n => exact .int (trims_trim l) (Text.Decimal.parse?_eq_some_iff.1 hn)
    | none => exact .notInt (trims_trim l) (Text.Decimal.parse?_eq_none_iff.1 hn)

theorem convert_of_gives {type : DataType} {l : String} {a : Option Value} (h : Gives type l a) :
    convert type l = a := by
  cases h with
  | string => rfl
  | bool ht h =>
    rw [convert, trim_eq_iff.2 ht, Bool.eq_iff_iff.2 (sameLetters_true_iff.trans h.symm)]
  | int ht h =>
    rw [convert, trim_eq_iff.2 ht, Text.Decimal.parse?_eq_some_iff.2 h, Option.map_some]
  | notInt ht h =>
    rw [convert, trim_eq_iff.2 ht, Text.Decimal.parse?_eq_none_iff.2 h, Option.map_none]

theorem answers_iff {type : DataType} {line? : Option (List UInt8)} {a : Option Value} :
    Answers type line? a ↔ line?.bind (lineValue? type) = a := by
  constructor
  · intro h
    cases h with
    | exhausted => rfl
    | notText h => rw [Option.bind_some, lineValue?, text?_eq_none_iff.2 h, Option.bind_none]
    | text hl ha =>
      rw [Option.bind_some, lineValue?, text?_of_lineText hl, Option.bind_some, convert_of_gives ha]
  · rintro rfl
    cases line? with
    | none => exact .exhausted
    | some line =>
      rw [Option.bind_some, lineValue?]
      cases htext : text? line with
      | none => exact .notText (text?_eq_none_iff.1 htext)
      | some l => exact .text (text?_eq_some_iff.1 htext) (gives_convert type l)

/-! ## Requests -/

theorem length_answers (i : Input) (types : List DataType) :
    (Reader.answers i types).length = types.length := by
  induction types generalizing i with
  | nil => rfl
  | cons type types ih => exact congrArg (· + 1) (ih _)

/-- The request at an index is answered by the line at that index. -/
theorem getElem?_answers (i : Input) (types : List DataType) (k : Nat) :
    (Reader.answers i types)[k]? =
      types[k]?.map fun type => i.lines[k]?.bind (lineValue? type) := by
  induction types generalizing i k with
  | nil => rfl
  | cons type types ih =>
    have hread : Reader.read type i = _ := read_eq type i
    rw [Reader.answers, hread]
    cases k with
    | zero => simp [List.head?_eq_getElem?]
    | succ k =>
      rw [List.getElem?_cons_succ, ih, lines_behind, List.getElem?_drop, Nat.add_comm 1 k]
      rfl

/-- Requests are answered one to one by the lines of the input, which bytes are split into in one
way. The answer to the request at an index is what the line at that index gives to it, and nothing
if there is no such line or it is not text. Each request uses up one line, whether it gives anything
or not, and its answer does not depend on the types that were requested before. -/
theorem requests_answered_by_lines (i : Input) :
    (∀ lines, SplitInto i.bytes lines ↔ lines = i.lines) ∧
    ∀ types : List DataType,
      (Reader.answers i types).length = types.length ∧
      (Reader.after i types).lines = i.lines.drop types.length ∧
      (∀ (k : Nat) (type : DataType), types[k]? = some type →
        ∀ a, (Reader.answers i types)[k]? = some a ↔ Answers type i.lines[k]? a) ∧
      ∀ (types' : List DataType) (k : Nat), types'[k]? = types[k]? →
        (Reader.answers i types')[k]? = (Reader.answers i types)[k]? := by
  refine ⟨fun lines => splitInto_iff, fun types => ⟨length_answers i types, ?_, ?_, ?_⟩⟩
  · rw [after_eq_behind, lines_behind]
  · intro k type hk a
    rw [getElem?_answers, hk, Option.map_some, Option.some.injEq, answers_iff]
  · intro types' k hk
    rw [getElem?_answers, getElem?_answers, hk]

/-- A line with a carriage return, one that is not text, a padded numeral with a sign and a zero,
and a rest without a newline. -/
theorem requests_answered_by_lines_mixed :
    let i : Input := ⟨[97, 13, 10, 255, 10, 32, 43, 48, 55, 32, 10, 84, 82, 85, 69, 13]⟩
    Reader.answers i [.string, .string, .int, .bool, .int] =
        [some (.str "a"), none, some (.int 7), some (.bool true), none] ∧
      SplitInto i.bytes
        [[97, 13, 10], [255, 10], [32, 43, 48, 55, 32, 10], [84, 82, 85, 69, 13]] ∧
      Answers .string (some [255, 10]) none ∧
      Answers .int (some [32, 43, 48, 55, 32, 10]) (some (.int 7)) ∧
      (Reader.answers i [.int, .int, .int])[2]? = some (some (.int 7)) := by
  intro i
  have hanswers : Reader.answers i [.string, .string, .int, .bool, .int] =
      [some (.str "a"), none, some (.int 7), some (.bool true), none] := by decide +kernel
  have hlines : [[97, 13, 10], [255, 10], [32, 43, 48, 55, 32, 10], [84, 82, 85, 69, 13]] =
      i.lines := by decide
  obtain ⟨hsplit, hrequests⟩ := requests_answered_by_lines i
  obtain ⟨_, _, hline, hkinds⟩ := hrequests [.string, .string, .int, .bool, .int]
  rw [hanswers, ← hlines] at hline
  refine ⟨hanswers, (hsplit _).2 hlines, (hline 1 .string rfl none).1 rfl,
    (hline 2 .int rfl _).1 rfl, ?_⟩
  rw [hkinds [.int, .int, .int] 2 rfl, hanswers]
  rfl

end Input

end Ippcode
