import Ippcode.Proofs.Escapes

/-! # Joined texts

Two texts can be decoded one by one or joined and decoded as one. Both come to the same unless the
first one ends in the middle of an escape that the second one completes: then the joined text has an
escape that neither of the two has, and decoding it loses three characters more.
-/
namespace Ippcode

namespace Text.Escape

/-- The first text ends with a backslash that has fewer than three digits behind it, and the second
one begins with the digits that it lacks. -/
def Splits (s t : List Char) : Prop :=
  ∃ u ds es rest, s = u ++ '\\' :: ds ∧ t = es ++ rest ∧ ds.length < 3 ∧
    ds.length + es.length = 3 ∧ ∀ d ∈ ds ++ es, d.isDigit

variable {s t u cs ds : List Char} {n : Nat}

/-! ## The place where texts are joined -/

theorem Splits.append_left (h : Splits s t) (u : List Char) : Splits (u ++ s) t := by
  obtain ⟨v, ds, es, rest, rfl, ht, hlt, hthree, hdigits⟩ := h
  exact ⟨u ++ v, ds, es, rest, (List.append_assoc u v _).symm, ht, hlt, hthree, hdigits⟩

/-- A backslash completes no escape. -/
theorem not_splits_backslash : ¬ Splits s ('\\' :: cs) := by
  rintro ⟨u, ds, es, rest, _, ht, hlt, hthree, hdigits⟩
  cases es with
  | nil => exact absurd hthree (Nat.ne_of_lt hlt)
  | cons e es =>
    obtain ⟨rfl, _⟩ := List.cons.inj ht
    cases hdigits '\\' (List.mem_append_right ds List.mem_cons_self)

theorem leading?_of_length_lt (h : cs.length < 4) : leading? cs = none := by
  rw [Option.eq_none_iff_forall_not_mem]
  intro n hn
  obtain ⟨a, b, c, rest, rfl, _⟩ := leading?_eq_some_iff.1 hn
  simp only [List.length_cons] at h
  omega

theorem leading?_append (h : leading? s = some n) (t : List Char) : leading? (s ++ t) = some n := by
  obtain ⟨a, b, c, rest, rfl, hvalue⟩ := leading?_eq_some_iff.1 h
  exact leading?_eq_some_iff.2 ⟨a, b, c, rest ++ t, rfl, hvalue⟩

theorem exists_leading?_of_digits (hlength : ds.length = 3) (hdigits : ∀ d ∈ ds, d.isDigit)
    (rest : List Char) : ∃ n, leading? ('\\' :: (ds ++ rest)) = some n ∧
      decodeChars ('\\' :: (ds ++ rest)) = Char.ofNat n :: decodeChars rest := by
  obtain ⟨a, b, c, rfl⟩ := List.length_eq_three.1 hlength
  simp only [List.forall_mem_cons] at hdigits
  have h := leading?_eq_some_iff.2
    ⟨a, b, c, rest, rfl, hdigits.1, hdigits.2.1, hdigits.2.2.1, rfl⟩
  exact ⟨_, h, decodeChars_escape h⟩

/-- An escape that begins in the first text, which does not hold all of it, is split. -/
theorem splits_of_leading? (hs : s ≠ []) (hnone : leading? s = none)
    (h : leading? (s ++ t) = some n) : Splits s t := by
  obtain ⟨a, b, c, rest, heq, ha, hb, hc, _⟩ := leading?_eq_some_iff.1 h
  have hwhole : ∀ v, s ≠ '\\' :: a :: b :: c :: v := by
    intro v hv
    rw [leading?_eq_some_iff.2 ⟨a, b, c, v, hv, ha, hb, hc, rfl⟩] at hnone
    cases hnone
  change s ++ t = ['\\', a, b, c] ++ rest at heq
  rcases List.append_eq_append_iff.1 heq with ⟨es, hescape, ht⟩ | ⟨v, hv, _⟩
  · obtain ⟨x, ds, rfl⟩ := List.exists_cons_of_ne_nil hs
    obtain ⟨rfl, hdigits⟩ := List.cons.inj hescape
    change [a, b, c] = ds ++ es at hdigits
    have hthree : ds.length + es.length = 3 := by
      rw [← List.length_append, ← hdigits]
      rfl
    have hes : es ≠ [] := by
      rintro rfl
      rw [List.append_nil] at hdigits
      exact hwhole [] (congrArg _ hdigits.symm)
    have hpos := List.length_pos_iff.2 hes
    refine ⟨[], ds, es, rest, rfl, ht, by omega, hthree, ?_⟩
    rw [← hdigits]
    simp [ha, hb, hc]
  · exact absurd hv (hwhole v)

/-- What is split is an escape of the joined text that reaches from the one text into the other. -/
theorem splits_iff_occurrences :
    Splits s t ↔ ∃ i ∈ occurrences (s ++ t), i < s.length ∧ s.length < i + 4 := by
  constructor
  · rintro ⟨u, ds, es, rest, rfl, rfl, hlt, hthree, hdigits⟩
    obtain ⟨n, hn, _⟩ := exists_leading?_of_digits (List.length_append.trans hthree) hdigits rest
    have hdrop : (u ++ '\\' :: ds ++ (es ++ rest)).drop u.length = '\\' :: (ds ++ es ++ rest) := by
      simp
    refine ⟨u.length, mem_occurrences.2 ⟨n, ?_⟩, ?_⟩
    · rw [escapeAt?, hdrop, hn]
    · simp only [List.length_append, List.length_cons]
      omega
  · rintro ⟨i, hi, hlt, hlt'⟩
    obtain ⟨n, hn⟩ := mem_occurrences.1 hi
    rw [escapeAt?, List.drop_append_of_le_length (Nat.le_of_lt hlt)] at hn
    have hlength : (s.drop i).length < 4 := by
      rw [List.length_drop]
      omega
    have hsplits := splits_of_leading? (mt List.drop_eq_nil_iff.1 (Nat.not_le.2 hlt))
      (leading?_of_length_lt hlength) hn
    rw [← List.take_append_drop i s]
    exact hsplits.append_left (s.take i)

instance : Decidable (Splits s t) := decidable_of_iff _ splits_iff_occurrences.symm

/-! ## Decoding joined texts -/

theorem decodeChars_append (h : ¬ Splits s t) :
    decodeChars (s ++ t) = decodeChars s ++ decodeChars t := by
  induction s using escapeInduction with
  | nil => rfl
  | escape a b c rest n hn ih =>
    have hrest : ¬ Splits rest t := mt (fun hs => hs.append_left ['\\', a, b, c]) h
    have hjoined := decodeChars_escape (leading?_append hn t)
    rw [decodeChars_escape hn]
    exact hjoined.trans (congrArg _ (ih hrest))
  | plain x rest hx ih =>
    have hrest : ¬ Splits rest t := mt (fun hs => hs.append_left [x]) h
    cases hjoined : leading? (x :: rest ++ t) with
    | some n => exact absurd (splits_of_leading? (List.cons_ne_nil x rest) hx hjoined) h
    | none =>
      rw [decodeChars_plain hx]
      exact (decodeChars_plain hjoined).trans (congrArg _ (ih hrest))

theorem decodeChars_digits (h : ∀ d ∈ ds, d.isDigit) (rest : List Char) :
    decodeChars (ds ++ rest) = ds ++ decodeChars rest := by
  induction ds with
  | nil => rfl
  | cons d ds ih =>
    rw [List.forall_mem_cons] at h
    rw [List.cons_append, decodeChars_plain (leading?_of_isDigit h.1 _), ih h.2, List.cons_append]

/-- The backslash and the digits of a split escape are kept, unless the texts are joined. -/
theorem length_decodeChars_of_splits (h : Splits s t) :
    (decodeChars s).length + (decodeChars t).length = (decodeChars (s ++ t)).length + 3 := by
  obtain ⟨u, ds, es, rest, rfl, rfl, hlt, hthree, hdigits⟩ := h
  obtain ⟨n, _, hescape⟩ :=
    exists_leading?_of_digits (List.length_append.trans hthree) hdigits rest
  have hapart : decodeChars ('\\' :: ds) = '\\' :: ds := by
    have hdecode := decodeChars_digits (fun d hd => hdigits d (List.mem_append_left es hd)) []
    rw [List.append_nil] at hdecode
    rw [decodeChars_plain (leading?_of_length_lt (Nat.succ_lt_succ hlt)), hdecode, decodeChars,
      List.append_nil]
  have hdone : decodeChars (es ++ rest) = es ++ decodeChars rest :=
    decodeChars_digits (fun d hd => hdigits d (List.mem_append_right ds hd)) rest
  have hjoined : u ++ '\\' :: ds ++ (es ++ rest) = u ++ '\\' :: (ds ++ es ++ rest) := by simp
  -- a backslash completes no escape, so that both texts can be cut in front of it
  rw [hjoined, decodeChars_append not_splits_backslash, decodeChars_append not_splits_backslash,
    hescape, hapart, hdone]
  simp only [List.length_append, List.length_cons]
  omega

theorem decodeChars_append_iff :
    decodeChars (s ++ t) = decodeChars s ++ decodeChars t ↔ ¬ Splits s t := by
  refine ⟨?_, decodeChars_append⟩
  intro h hsplits
  have hlength := length_decodeChars_of_splits hsplits
  rw [h, List.length_append] at hlength
  omega

theorem decode_append_iff {s t : String} :
    decode (s ++ t) = decode s ++ decode t ↔ ¬ Splits s.toList t.toList := by
  rw [← String.toList_inj, String.toList_append, toList_decode, toList_decode, toList_decode,
    String.toList_append, decodeChars_append_iff]

end Text.Escape

/-! ## Printing joined texts -/

namespace Sink

variable {s : Sink} {x : ByteArray}

theorem put_put (h : s.hasRoom x.size) (y : ByteArray) : (s.put x).put y = s.put (x ++ y) := by
  obtain ⟨contents, limit⟩ := s
  cases limit with
  | none => simp only [put, ByteArray.append_assoc]
  | some n =>
    have hall : x.extract 0 (n - contents.size) = x := extract_of_size_le (of_decide_eq_true h)
    simp only [put, ByteArray.extract_append, hall, ByteArray.size_append, ByteArray.append_assoc,
      Nat.zero_sub, Nat.sub_sub]

theorem put_append_of_full (h : ¬ s.hasRoom x.size) (y : ByteArray) : s.put (x ++ y) = s.put x := by
  obtain ⟨contents, limit⟩ := s
  cases limit with
  | none => exact absurd rfl h
  | some n =>
    have hlt : n - contents.size ≤ x.size := by
      by_contra hle
      exact h (decide_eq_true (Nat.le_of_lt (Nat.not_le.1 hle)))
    have hnone : y.extract (0 - x.size) (n - contents.size - x.size) = .empty := by
      rw [Nat.sub_eq_zero_of_le hlt, Nat.zero_sub]
      exact ByteArray.extract_same
    simp only [put, ByteArray.extract_append, hnone, ByteArray.append_empty]

end Sink

open Text.Escape

namespace Machine

variable {ρ : Type} [Reader ρ] {p : Program} {m : Machine ρ Sink} {s t : String} {a b : Symbol}

/-- What the output holds after lines in a row. -/
def printed (p : Program) (line : Line) (rest : List Line) (m : Machine ρ Sink) : ByteArray :=
  (m.execRow p line rest).progress.machine.stdout.contents

theorem printed_of_next {m' : Machine ρ Sink} {line next : Line} {rest : List Line}
    (h : m.exec p line = .next m') :
    m.printed p line (next :: rest) = m'.advanced.printed p next rest := by
  rw [printed, execRow_of_next h]
  rfl

theorem printed_write (order : Int64) (h : m.value a = .ok (.str s)) :
    m.printed p ⟨order, .write a⟩ [] = (m.stdout.put (decode s).toUTF8).contents := by
  rw [printed, execRow, exec_write order a h]
  cases (m.stdout.write (decode s)).2 <;> rfl

/-- Strings that are written one by one are put to the output as one, with or without a limit. -/
theorem printed_write_write (order order' : Int64) (ha : m.value a = .ok (.str s))
    (hb : m.value b = .ok (.str t)) :
    m.printed p ⟨order, .write a⟩ [⟨order', .write b⟩] =
      (m.stdout.put (decode s ++ decode t).toUTF8).contents := by
  have happend : (decode s ++ decode t).toUTF8 = (decode s).toUTF8 ++ (decode t).toUTF8 :=
    String.toByteArray_append
  rw [happend]
  by_cases hroom : m.stdout.hasRoom (decode s).utf8ByteSize
  · have hexec : m.exec p ⟨order, .write a⟩ =
        .next { m with stdout := m.stdout.put (decode s).toUTF8 } := by
      rw [exec_write order a ha, Sink.write, if_pos hroom]
      rfl
    have hvalue : (advanced { m with stdout := m.stdout.put (decode s).toUTF8 }).value b =
        .ok (.str t) := by cases b <;> exact hb
    rw [printed_of_next hexec, printed_write order' hvalue,
      ← Sink.put_put (x := (decode s).toUTF8) hroom]
    rfl
  · -- the second line is not carried out, and there is no room for its text either
    have hexec : m.exec p ⟨order, .write a⟩ = .fault (.outputFailed "sink full")
        { m with stdout := m.stdout.put (decode s).toUTF8 } := by
      rw [exec_write order a ha, Sink.write, if_neg hroom]
      rfl
    rw [printed, execRow_of_fault hexec, Sink.put_append_of_full (x := (decode s).toUTF8) hroom]
    rfl

theorem printed_concat_write (order order' : Int64) {dst : VarRef} (ha : m.value a = .ok (.str s))
    (hb : m.value b = .ok (.str t)) (hdst : m.memory.Has dst) :
    m.printed p ⟨order, .binary .concat dst a b⟩ [⟨order', .write (.var dst)⟩] =
      (m.stdout.put (decode (s ++ t)).toUTF8).contents := by
  obtain ⟨memory, hexec, hload⟩ := exec_binary (p := p) order .concat
    (source_eq_ok_iff.2 ⟨ha, by simp⟩) (source_eq_ok_iff.2 ⟨hb, by simp⟩) rfl hdst
  have hvalue : (advanced { m with memory }).value (.var dst) = .ok (.str (s ++ t)) := hload
  rw [printed_of_next hexec, printed_write order' hvalue]
  rfl

end Machine

/-- To decode two texts joined is to decode both and to join the results, except exactly if the
first one ends with a backslash and fewer than three digits and the second one begins with the
digits that it lacks, which is to say that an escape reaches from the one into the other. So to
concatenate two strings and to write the result prints what writing them one by one does unless
this is the case, be the output limited or not; and if it is the case, what an output without a
limit holds differs. -/
theorem decoding_joins_unless_split (s t : String) :
    (decode (s ++ t) = decode s ++ decode t ↔ ¬ Splits s.toList t.toList) ∧
    (Splits s.toList t.toList ↔
      ∃ i ∈ occurrences (s ++ t).toList, i < s.length ∧ s.length < i + 4) ∧
    ∀ {ρ : Type} [Reader ρ] (p q : Program) (m : Machine ρ Sink) (dst : VarRef) (a b : Symbol)
      (i j k l : Int64),
      m.value a = .ok (.str s) → m.value b = .ok (.str t) → m.memory.Has dst →
      (¬ Splits s.toList t.toList →
        m.printed p ⟨i, .binary .concat dst a b⟩ [⟨j, .write (.var dst)⟩] =
          m.printed q ⟨k, .write a⟩ [⟨l, .write b⟩]) ∧
      (m.stdout.limit = none →
        (m.printed p ⟨i, .binary .concat dst a b⟩ [⟨j, .write (.var dst)⟩] =
          m.printed q ⟨k, .write a⟩ [⟨l, .write b⟩] ↔ ¬ Splits s.toList t.toList)) := by
  refine ⟨decode_append_iff, ?_, ?_⟩
  · rw [String.toList_append, ← String.length_toList]
    exact splits_iff_occurrences
  · intro ρ _ p q m dst a b i j k l ha hb hdst
    rw [Machine.printed_concat_write i j ha hb hdst, Machine.printed_write_write k l ha hb]
    refine ⟨fun h => ?_, fun hl => ?_⟩
    · rw [decode_append_iff.2 h]
    · rw [← decode_append_iff]
      simp only [Sink.put, hl]
      exact append_toUTF8_inj

/-- An escape of which the first string has the backslash and one digit. -/
theorem decoding_joins_unless_split_after_digit :
    ∃ (p q : Program) (m : Machine) (n k : Nat),
      Program.ofInstructions [⟨1, .defVar, [.symbol (.var ⟨.gf, "t"⟩)]⟩,
        ⟨2, .concat, [.symbol (.var ⟨.gf, "t"⟩), .symbol (.const (.str "\\0")),
          .symbol (.const (.str "65"))]⟩,
        ⟨3, .write, [.symbol (.var ⟨.gf, "t"⟩)]⟩] = .ok p ∧
      Program.ofInstructions [⟨1, .defVar, [.symbol (.var ⟨.gf, "t"⟩)]⟩,
        ⟨2, .write, [.symbol (.const (.str "\\0"))]⟩,
        ⟨3, .write, [.symbol (.const (.str "65"))]⟩] = .ok q ∧
      (Machine.start ⟨[]⟩ (.empty none) (.empty none) : Machine).run p 1 = .running m ∧
      (Machine.start ⟨[]⟩ (.empty none) (.empty none) : Machine).run q 1 = .running m ∧
      Splits "\\0".toList "65".toList ∧
      (m.run p (n + 1)).machine.stdout.contents ≠ (m.run q (k + 1)).machine.stdout.contents := by
  let v : VarRef := ⟨.gf, "t"⟩
  let first : Symbol := .const (.str "\\0")
  let second : Symbol := .const (.str "65")
  let p : Program :=
    ⟨#[⟨1, .defVar v⟩, ⟨2, .binary .concat v first second⟩, ⟨3, .write (.var v)⟩], []⟩
  let q : Program := ⟨#[⟨1, .defVar v⟩, ⟨2, .write first⟩, ⟨3, .write second⟩], []⟩
  have hp : Program.ofInstructions _ = .ok p :=
    Program.ofInstructions_of_perm p.lines.toList (.refl _) (by decide) (by decide) rfl
  have hq : Program.ofInstructions _ = .ok q :=
    Program.ofInstructions_of_perm q.lines.toList (.refl _) (by decide) (by decide) rfl
  let m : Machine := ((Machine.start ⟨[]⟩ (.empty none) (.empty none) : Machine).run p 1).machine
  have hdeclared : m.memory.Has v := ⟨m.memory.global, rfl, by decide⟩
  have hjoined : p.StandsAt m.pc [⟨2, .binary .concat v first second⟩, ⟨3, .write (.var v)⟩] :=
    ⟨rfl, rfl, trivial⟩
  have hapart : q.StandsAt m.pc [⟨2, .write first⟩, ⟨3, .write second⟩] := ⟨rfl, rfl, trivial⟩
  have hsplits : Splits "\\0".toList "65".toList := by decide +kernel
  obtain ⟨_, _, hprints⟩ := decoding_joins_unless_split "\\0" "65"
  obtain ⟨_, hsame⟩ := hprints p q m v first second 2 3 2 3 rfl rfl hdeclared
  obtain ⟨n, _, hn⟩ := Machine.exists_run_eq_execRow hjoined
  obtain ⟨k, _, hk⟩ := Machine.exists_run_eq_execRow hapart
  refine ⟨p, q, m, n, k, hp, hq, rfl, rfl, hsplits, ?_⟩
  rw [hn, hk]
  exact fun h => (hsame rfl).1 h hsplits

end Ippcode
