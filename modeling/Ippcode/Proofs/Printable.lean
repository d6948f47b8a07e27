import Ippcode.Proofs.Escapes

/-! # Every text can be printed

A text is written with escapes by choosing characters that have escapes and writing each of their
occurrences as one. If the backslash is among them, decoding gives the text back: every backslash of
the written form begins an escape that was put there, since a backslash of the text is not kept, and
the digits behind it are those of that escape, since there are always three. So no digit that
happens to follow is taken for one of them.
-/
namespace Ippcode

namespace Text.Escape

variable {chosen : Char → Bool} {x : Char}

/-- An escape has three digits, with zeros in front of the ordinal where it is short. -/
theorem ofChar_eq_leftpad (h : x.toNat ≤ 999) :
    ofChar x = '\\' :: (Nat.toDigits 10 x.toNat).leftpad 3 '0' := by
  unfold ofChar
  generalize x.toNat = n at h
  by_cases hunits : n < 10
  · have hzeros : n / 100 = 0 ∧ n / 10 % 10 = 0 ∧ n % 10 = n := by omega
    rw [hzeros.1, hzeros.2.1, hzeros.2.2, Nat.toDigits_of_lt_base hunits]
    rfl
  by_cases htens : n < 100
  · have hzero : n / 100 = 0 ∧ n / 10 % 10 = n / 10 := by omega
    rw [hzero.1, hzero.2, Nat.toDigits_of_base_le (by omega) (by omega),
      Nat.toDigits_of_lt_base (by omega)]
    rfl
  · have hhundreds : n / 100 = n / 10 / 10 := by omega
    rw [hhundreds, Nat.toDigits_of_base_le (by omega) (by omega),
      Nat.toDigits_of_base_le (by omega) (by omega), Nat.toDigits_of_lt_base (by omega)]
    rfl

theorem leading?_of_ne_backslash (h : x ≠ '\\') (rest : List Char) :
    leading? (x :: rest) = none := by
  rw [Option.eq_none_iff_forall_not_mem]
  intro n hn
  obtain ⟨a, b, c, tail, heq, _⟩ := leading?_eq_some_iff.1 hn
  exact h (List.cons.inj heq).1

theorem encodeChars_cons (chosen : Char → Bool) (x : Char) (cs : List Char) :
    encodeChars chosen (x :: cs) =
      (if chosen x then ofChar x else [x]) ++ encodeChars chosen cs := rfl

/-- Decoding gives back what was written with escapes for all backslashes. -/
theorem decodeChars_encodeChars (hbackslash : chosen '\\')
    (hordinal : ∀ x, chosen x → x.toNat ≤ 999) (cs : List Char) :
    decodeChars (encodeChars chosen cs) = cs := by
  induction cs with
  | nil => rfl
  | cons x cs ih =>
    rw [encodeChars_cons]
    by_cases hx : chosen x
    · rw [if_pos hx, decodeChars_ofChar (Nat.lt_succ_of_le (hordinal x hx)), ih]
    · -- what is kept is not a backslash, so it begins no escape whatever follows it
      have hne : x ≠ '\\' := by
        rintro rfl
        exact hx hbackslash
      rw [if_neg hx, List.singleton_append, decodeChars_plain (leading?_of_ne_backslash hne _), ih]

theorem decode_encode (hbackslash : chosen '\\') (hordinal : ∀ x, chosen x → x.toNat ≤ 999)
    (t : String) : decode (encode chosen t) = t := by
  rw [← String.toList_inj, toList_decode, toList_encode,
    decodeChars_encodeChars hbackslash hordinal]

theorem encodeChars_eq_flatMap (hordinal : ∀ x, chosen x → x.toNat ≤ 999) (cs : List Char) :
    encodeChars chosen cs = cs.flatMap fun x =>
      if chosen x then '\\' :: (Nat.toDigits 10 x.toNat).leftpad 3 '0' else [x] := by
  refine List.flatMap_congr fun x _ => ?_
  by_cases hx : chosen x
  · rw [if_pos hx, if_pos hx, ofChar_eq_leftpad (hordinal x hx)]
  · rw [if_neg hx, if_neg hx]

end Text.Escape

open Text.Escape

/-- Every text is what some string decodes to. It is enough to put `\092` for each backslash. More
generally, let any set of characters with ordinals up to 999 be chosen, the backslash among them:
the text in which each occurrence of one of them is written as a backslash and the three digits of
its ordinal, and all else is kept, decodes to the text. So an output without a limit can be given
any text, by writing one constant. -/
theorem every_text_printable (t : String) :
    decode (String.ofList (t.toList.flatMap fun x =>
      if x = '\\' then ['\\', '0', '9', '2'] else [x])) = t ∧
    ∀ chosen : Char → Bool, chosen '\\' → (∀ x, chosen x → x.toNat ≤ 999) →
      (encode chosen t).toList = t.toList.flatMap (fun x =>
        if chosen x then '\\' :: (Nat.toDigits 10 x.toNat).leftpad 3 '0' else [x]) ∧
      decode (encode chosen t) = t ∧
      ∀ {ρ : Type} [Reader ρ] (p : Program) (m : Machine ρ Sink) (order : Int64),
        m.stdout.limit = none →
        m.exec p ⟨order, .write (.const (.str (encode chosen t)))⟩ =
          .next { m with stdout := ⟨m.stdout.contents ++ t.toUTF8, none⟩ } := by
  constructor
  · have hordinal : ∀ x : Char, decide (x = '\\') → x.toNat ≤ 999 := by
      intro x hx
      rw [of_decide_eq_true hx]
      decide
    have hform : (t.toList.flatMap fun x => if x = '\\' then ['\\', '0', '9', '2'] else [x]) =
        encodeChars (fun x => decide (x = '\\')) t.toList := by
      refine List.flatMap_congr fun x _ => ?_
      by_cases hx : x = '\\'
      · subst hx
        rfl
      · rw [if_neg hx, if_neg (mt of_decide_eq_true hx)]
    rw [hform]
    exact decode_encode rfl hordinal t
  · intro chosen hbackslash hordinal
    have hdecode := decode_encode hbackslash hordinal t
    refine ⟨?_, hdecode, ?_⟩
    · rw [toList_encode, encodeChars_eq_flatMap hordinal]
    · intro ρ _ p m order hl
      rw [Machine.exec_write_of_unlimited order _ rfl hl, hdecode]

/-- The backslash, a digit and the character with the ordinal 999 are chosen. A digit follows the
escape of a digit, and behind the escape of the backslash there is an escape again. -/
theorem every_text_printable_digits :
    let chosen : Char → Bool := fun x => ['\\', '0', 'ϧ'].contains x
    chosen '\\' ∧ (∀ x, chosen x → x.toNat ≤ 999) ∧
      encode chosen "\\065ϧ😀" = "\\092\\04865\\999😀" ∧
      decode "\\092\\04865\\999😀" = "\\065ϧ😀" ∧
      ∃ m' : Machine, (Machine.start ⟨[]⟩ (.empty none) (.empty none) : Machine).exec ⟨#[], []⟩
        ⟨1, .write (.const (.str "\\092\\04865\\999😀"))⟩ = .next m' ∧
        m'.stdout.contents = "\\065ϧ😀".toUTF8 := by
  intro chosen
  have hordinal : ∀ x, chosen x → x.toNat ≤ 999 := by
    intro x hx
    have hmem : x ∈ ['\\', '0', 'ϧ'] := List.contains_iff_mem.1 hx
    simp only [List.mem_cons, List.not_mem_nil, or_false] at hmem
    rcases hmem with rfl | rfl | rfl <;> decide
  have hencode : encode chosen "\\065ϧ😀" = "\\092\\04865\\999😀" := by decide +kernel
  obtain ⟨_, hdecode, hexec⟩ := (every_text_printable "\\065ϧ😀").2 chosen rfl hordinal
  rw [hencode] at hdecode hexec
  exact ⟨rfl, hordinal, hencode, hdecode, _, hexec _ _ 1 rfl, ByteArray.empty_append⟩

end Ippcode
