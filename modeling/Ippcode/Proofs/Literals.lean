import Ippcode.Json.Token
import Ippcode.Text.Blank
import Ippcode.Text.Decimal
import Mathlib.Data.List.DropRight

/-! # Trimmed texts and written integers

A text is left alone by trimming if it has no blank at either end, and trimming leaves no blank
there: it takes off the blanks at both ends and nothing else. The written form of a 64-bit integer
is read back as that integer, and it is a number as JSON writes it.
-/
namespace Ippcode.Text

def StartsBlank (s : String) : Prop := ∃ c ∈ s.toList.head?, isBlank c

def EndsBlank (s : String) : Prop := ∃ c ∈ s.toList.getLast?, isBlank c

instance (s : String) : Decidable (StartsBlank s) := s.toList.head?.decidableExistsMem

instance (s : String) : Decidable (EndsBlank s) := s.toList.getLast?.decidableExistsMem

/-- What is left of a text without the blanks at both ends of it. -/
def Trims (s t : String) : Prop :=
  ∃ front back, s.toList = front ++ t.toList ++ back ∧ (∀ c ∈ front, isBlank c) ∧
    (∀ c ∈ back, isBlank c) ∧ ¬ StartsBlank t ∧ ¬ EndsBlank t

theorem trimChars_eq_rdropWhile (cs : List Char) :
    trimChars cs = (cs.dropWhile isBlank).rdropWhile isBlank := rfl

theorem not_startsBlank_trim (s : String) : ¬ StartsBlank (trim s) := by
  rintro ⟨c, hc, hblank⟩
  rw [toList_trim, trimChars_eq_rdropWhile] at hc
  have hhead := List.head?_dropWhile_not isBlank s.toList
  -- what is left after the end is trimmed begins as it did before
  obtain ⟨cut, hcut⟩ := List.rdropWhile_prefix isBlank (s.toList.dropWhile isBlank)
  rw [← hcut, List.head?_append, hc] at hhead
  simp [hblank] at hhead

theorem not_endsBlank_trim (s : String) : ¬ EndsBlank (trim s) := by
  rintro ⟨c, hc, hblank⟩
  rw [toList_trim, trimChars_eq_rdropWhile] at hc
  obtain ⟨hne, rfl⟩ := List.mem_getLast?_eq_getLast hc
  exact List.rdropWhile_last_not _ _ hne hblank

theorem trim_eq_self {s : String} (hs : ¬ StartsBlank s) (he : ¬ EndsBlank s) : trim s = s := by
  have hstart : s.toList.dropWhile isBlank = s.toList := by
    rw [List.dropWhile_eq_self_iff]
    intro hl hblank
    exact hs ⟨s.toList[0], List.head?_eq_getElem? .. ▸ List.getElem?_eq_getElem hl, hblank⟩
  have hend : s.toList.rdropWhile isBlank = s.toList := by
    rw [List.rdropWhile_eq_self_iff]
    intro hl hblank
    exact he ⟨s.toList.getLast hl, List.getLast?_eq_getLast_of_ne_nil hl, hblank⟩
  rw [trim, trimChars_eq_rdropWhile, hstart, hend, String.ofList_toList]

theorem trim_eq_self_of_forall {s : String} (h : ∀ c ∈ s.toList, ¬ isBlank c) : trim s = s := by
  apply trim_eq_self
  · rintro ⟨c, hc, hblank⟩
    exact h c (List.mem_of_mem_head? hc) hblank
  · rintro ⟨c, hc, hblank⟩
    exact h c (List.mem_of_mem_getLast? hc) hblank

/-- Blanks at either end make no difference to what is left by trimming. -/
theorem trimChars_padded {front cs back : List Char} (hfront : ∀ c ∈ front, isBlank c)
    (hback : ∀ c ∈ back, isBlank c) : trimChars (front ++ cs ++ back) = trimChars cs := by
  have hend : ∀ ds : List Char, (ds ++ back).rdropWhile isBlank = ds.rdropWhile isBlank := by
    intro ds
    rw [List.rdropWhile, List.reverse_append,
      List.dropWhile_append_of_pos fun c hc => hback c (List.mem_reverse.1 hc), List.rdropWhile]
  rw [trimChars_eq_rdropWhile, trimChars_eq_rdropWhile, List.append_assoc,
    List.dropWhile_append_of_pos hfront, List.dropWhile_append]
  split
  next hempty => rw [List.dropWhile_eq_nil_iff.2 hback, List.isEmpty_iff.1 hempty]
  next => exact hend _

theorem trims_trim (s : String) : Trims s (trim s) := by
  have hfront : ∀ c ∈ s.toList.takeWhile isBlank, isBlank c := fun c hc =>
    List.all_eq_true.1 List.all_takeWhile c hc
  have hback : ∀ c ∈ (s.toList.dropWhile isBlank).rtakeWhile isBlank, isBlank c := fun c hc =>
    List.mem_rtakeWhile_imp hc
  refine ⟨_, _, ?_, hfront, hback, not_startsBlank_trim s, not_endsBlank_trim s⟩
  rw [toList_trim, trimChars_eq_rdropWhile, List.append_assoc, List.rdropWhile_append_rtakeWhile,
    List.takeWhile_append_dropWhile]

theorem trim_eq_iff {s t : String} : trim s = t ↔ Trims s t := by
  constructor
  · rintro rfl
    exact trims_trim s
  · rintro ⟨front, back, hs, hfront, hback, hstart, hend⟩
    rw [← trim_eq_self hstart hend, trim, hs, trimChars_padded hfront hback, trim]

/-- Whether a text ends with a blank is seen from what it ends with. -/
theorem endsBlank_iff {s t : String} {front : List Char} (h : s.toList = front ++ t.toList)
    (ht : t ≠ "") : EndsBlank s ↔ EndsBlank t := by
  have hne : t.toList ≠ [] := by simpa using ht
  rw [EndsBlank, h, List.getLast?_append_of_ne_nil _ hne, EndsBlank]

namespace Decimal

theorem toList_render (n : Int64) :
    (render n).toList =
      if n.toInt < 0 then '-' :: Nat.toDigits 10 n.toInt.natAbs
      else Nat.toDigits 10 n.toInt.natAbs := by
  unfold render
  split <;> simp [Nat.repr_eq_ofList_toDigits]

theorem isDigit_toDigits (k : Nat) : ∀ c ∈ Nat.toDigits 10 k, c.isDigit := fun _ hc =>
  Nat.isDigit_of_mem_toDigits (by omega) (by omega) hc

theorem digits?_toDigits (k : Nat) : digits? (Nat.toDigits 10 k) = some k := by
  rw [digits?, if_pos ⟨Nat.toDigits_ne_nil, List.all_eq_true.2 (isDigit_toDigits k)⟩,
    Nat.ofDigitChars_ten_toDigits]

/-- Digits without a sign. -/
theorem signed?_of_digits {cs : List Char} (h : ∀ c ∈ cs, c.isDigit) :
    signed? cs = (digits? cs).map Int.ofNat := by
  unfold signed?
  split
  · simp [Char.isDigit] at h
  · simp [Char.isDigit] at h
  · rfl

theorem signed?_render (n : Int64) : signed? (render n).toList = some n.toInt := by
  rw [toList_render]
  split
  · have hneg : -(n.toInt.natAbs : Int) = n.toInt := by omega
    simp only [signed?, digits?_toDigits]
    exact congrArg some hneg
  · have hpos : Int.ofNat n.toInt.natAbs = n.toInt := Int.natAbs_of_nonneg (by omega)
    rw [signed?_of_digits (isDigit_toDigits _), digits?_toDigits, Option.map_some, hpos]

theorem inRange_toInt (n : Int64) : InRange n.toInt :=
  ⟨Int64.le_toInt n, Int64.toInt_le n⟩

/-- The written form of an integer denotes it. -/
@[simp] theorem parse?_render (n : Int64) : parse? (render n) = some n := by
  simp [parse?, signed?_render, inRange_toInt]

/-- The first digit of a number that is not zero is not zero. -/
theorem head?_toDigits_ne_zero {k : Nat} (h : k ≠ 0) : (Nat.toDigits 10 k).head? ≠ some '0' := by
  induction k using Nat.strong_induction_on with
  | _ k ih =>
    by_cases hk : k < 10
    · simp [Nat.toDigits_of_lt_base hk, h]
    · rw [Nat.toDigits_of_base_le (by omega) (by omega), List.head?_append]
      have := ih (k / 10) (by omega) (by omega)
      cases hd : (Nat.toDigits 10 (k / 10)).head? with
      | none => simp [List.head?_eq_none_iff] at hd
      | some c => simpa [hd] using this

theorem not_isBlank_of_isDigit {c : Char} (h : c.isDigit) : ¬ isBlank c := by
  have hrange : 48 ≤ c.toNat ∧ c.toNat ≤ 57 := Char.isDigit_iff_toNat.1 h
  simp only [isBlank, blankRanges, List.any_cons, List.any_nil, Bool.or_false, Bool.or_eq_true,
    Bool.and_eq_true, decide_eq_true_eq]
  omega

theorem not_isBlank_of_mem_render {n : Int64} {c : Char} (hc : c ∈ (render n).toList) :
    ¬ isBlank c := by
  rw [toList_render] at hc
  split at hc
  · rcases List.mem_cons.1 hc with rfl | hc
    · decide
    · exact not_isBlank_of_isDigit (isDigit_toDigits _ c hc)
  · exact not_isBlank_of_isDigit (isDigit_toDigits _ c hc)

@[simp] theorem trim_render (n : Int64) : trim (render n) = render n :=
  trim_eq_self_of_forall fun _ => not_isBlank_of_mem_render

theorem unsigned_toDigits (k : Nat) : Json.Number.unsigned (Nat.toDigits 10 k) := by
  by_cases hk : k = 0
  · subst hk
    simp [Json.Number.unsigned, Json.Number.fraction, Json.Number.exponent]
  · unfold Json.Number.unsigned
    split
    · next cs heq => exact absurd (by simp [heq]) (head?_toDigits_ne_zero hk)
    · have htake := List.takeWhile_eq_self_iff.2 (isDigit_toDigits k)
      have hdrop := List.dropWhile_eq_nil_iff.2 (isDigit_toDigits k)
      simp [Json.Number.digitsThen, htake, hdrop, Json.Number.fraction, Json.Number.exponent,
        Nat.toDigits_ne_nil]

theorem isValid_render (n : Int64) : Json.Number.isValid (render n).toList := by
  rw [toList_render]
  split
  · exact unsigned_toDigits _
  · unfold Json.Number.isValid
    split
    · next cs heq =>
      have hminus := isDigit_toDigits n.toInt.natAbs '-' (by simp [heq])
      simp [Char.isDigit] at hminus
    · exact unsigned_toDigits _

/-- Zero is written without a sign. -/
theorem render_ne_minus_zero (n : Int64) : render n ≠ "-0" := by
  intro h
  have hzero : parse? "-0" = some 0 := by decide +kernel
  have hn : some 0 = some n := by rw [← hzero, ← h, parse?_render]
  obtain rfl := Option.some.inj hn
  revert h
  decide +kernel

end Decimal

end Ippcode.Text
