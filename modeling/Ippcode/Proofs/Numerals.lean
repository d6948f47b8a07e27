import Ippcode.Proofs.Literals
import Mathlib.Data.Nat.Digits.Defs

/-! # Numerals

A numeral is at most one sign with one or more digits behind it, and every digit counts ten times as
much as the one to its right. This is said here without regard to how numerals are read. A text is
read as a 64-bit integer exactly if it is a numeral of that integer.
-/
namespace Ippcode.Text.Decimal

/-- The number that digits write. The last of them counts ones. -/
def placeValue (ds : List Char) : Nat :=
  Nat.ofDigits 10 (ds.reverse.map fun d => d.toNat - '0'.toNat)

/-- The numerals of an integer. -/
def Numeral (s : String) (n : Int) : Prop :=
  ∃ sign ds : List Char, s.toList = sign ++ ds ∧ ds ≠ [] ∧ (∀ d ∈ ds, d.isDigit) ∧
    ((sign = [] ∨ sign = ['+']) ∧ n = placeValue ds ∨ sign = ['-'] ∧ n = -placeValue ds)

variable {cs : List Char} {s : String}

theorem ofDigitChars_eq_placeValue (cs : List Char) :
    Nat.ofDigitChars 10 cs 0 = placeValue cs := by
  rw [placeValue, Nat.ofDigits_eq_foldr, List.map_reverse, List.foldr_reverse, List.foldl_map,
    Nat.ofDigitChars_eq_foldl]
  simp only [Nat.cast_id, Nat.add_comm]

theorem digits?_eq_some_iff {n : Nat} :
    digits? cs = some n ↔ cs ≠ [] ∧ (∀ d ∈ cs, d.isDigit) ∧ n = placeValue cs := by
  rw [digits?, ofDigitChars_eq_placeValue]
  by_cases h : cs ≠ [] ∧ cs.all Char.isDigit
  · rw [if_pos h, Option.some.injEq, eq_comm]
    exact ⟨fun hn => ⟨h.1, List.all_eq_true.1 h.2, hn⟩, fun hn => hn.2.2⟩
  · rw [if_neg h]
    refine ⟨fun hn => (by cases hn), fun hn => ?_⟩
    exact absurd ⟨hn.1, List.all_eq_true.2 hn.2.1⟩ h

theorem signed?_minus (cs : List Char) :
    signed? ('-' :: cs) = (digits? cs).map fun k => -Int.ofNat k := by
  simp only [signed?]
  cases digits? cs <;> rfl

theorem numeral_of_signed? {n : Int} (h : signed? s.toList = some n) : Numeral s n := by
  generalize hcs : s.toList = cs at h
  unfold signed? at h
  split at h
  next ds =>
    change signed? ('-' :: ds) = some n at h
    rw [signed?_minus] at h
    obtain ⟨k, hk, rfl⟩ := Option.map_eq_some_iff.1 h
    obtain ⟨hne, hdigits, rfl⟩ := digits?_eq_some_iff.1 hk
    exact ⟨['-'], ds, hcs, hne, hdigits, .inr ⟨rfl, rfl⟩⟩
  next ds =>
    obtain ⟨k, hk, rfl⟩ := Option.map_eq_some_iff.1 h
    obtain ⟨hne, hdigits, rfl⟩ := digits?_eq_some_iff.1 hk
    exact ⟨['+'], ds, hcs, hne, hdigits, .inl ⟨.inr rfl, rfl⟩⟩
  next =>
    obtain ⟨k, hk, rfl⟩ := Option.map_eq_some_iff.1 h
    obtain ⟨hne, hdigits, rfl⟩ := digits?_eq_some_iff.1 hk
    exact ⟨[], cs, hcs, hne, hdigits, .inl ⟨.inl rfl, rfl⟩⟩

theorem signed?_of_numeral {n : Int} (h : Numeral s n) : signed? s.toList = some n := by
  obtain ⟨sign, ds, hs, hne, hdigits, hsign⟩ := h
  have hvalue : digits? ds = some (placeValue ds) := digits?_eq_some_iff.2 ⟨hne, hdigits, rfl⟩
  rw [hs]
  rcases hsign with ⟨rfl | rfl, rfl⟩ | ⟨rfl, rfl⟩
  · rw [List.nil_append, signed?_of_digits hdigits, hvalue]
    rfl
  · exact congrArg (Option.map Int.ofNat) hvalue
  · rw [List.singleton_append, signed?_minus, hvalue]
    rfl

theorem toInt_ofInt_of_inRange {n : Int} (h : InRange n) : (Int64.ofInt n).toInt = n :=
  Int64.toInt_ofInt_of_le h.1 (Int.lt_add_one_of_le h.2)

/-- A text is read as an integer exactly if it is a numeral of it. -/
theorem parse?_eq_some_iff {n : Int64} : parse? s = some n ↔ Numeral s n.toInt := by
  constructor
  · intro h
    obtain ⟨k, hk, hrange⟩ := Option.bind_eq_some_iff.1 h
    split at hrange
    next hin =>
      cases hrange
      rw [toInt_ofInt_of_inRange hin]
      exact numeral_of_signed? hk
    next => cases hrange
  · intro h
    rw [parse?, signed?_of_numeral h, Option.bind_some, if_pos (inRange_toInt n), Int64.ofInt_toInt]

theorem parse?_eq_none_iff : parse? s = none ↔ ¬ ∃ n : Int64, Numeral s n.toInt := by
  rw [Option.eq_none_iff_forall_not_mem, not_exists]
  exact forall_congr' fun n => not_congr parse?_eq_some_iff

end Ippcode.Text.Decimal
