import Ippcode.Proofs.Access
import Ippcode.Proofs.Rows
import Ippcode.Proofs.Truncation

/-! # Escapes

An escape is a backslash with three digits behind it. Escapes never overlap, for a digit is not a
backslash. So a text can be decoded position by position, by a rule that looks at the text as it is
given and never at what has been decoded: the backslash of an escape becomes the character that the
escape stands for, its digits become nothing, and all else stays.
-/
namespace Ippcode

namespace Text.Escape

/-- The number that a digit writes. -/
def digit? (c : Char) : Option Nat := if c.isDigit then some (c.toNat - '0'.toNat) else none

/-- The number of the escape that a text begins with. -/
def leading? : List Char → Option Nat
  | '\\' :: a :: b :: c :: _ => do
    return 100 * (← digit? a) + 10 * (← digit? b) + (← digit? c)
  | _ => none

/-- The number of the escape that stands at a position. -/
def escapeAt? (cs : List Char) (i : Nat) : Option Nat := leading? (cs.drop i)

/-- The positions at which escapes stand. -/
def occurrences (cs : List Char) : List Nat :=
  (List.range cs.length).filter fun i => (escapeAt? cs i).isSome

/-- What becomes of the character at a position. -/
def becomes (cs : List Char) (i : Nat) : List Char :=
  match escapeAt? cs i with
  | some n => [Char.ofNat n]
  | none => if ∃ j ∈ occurrences cs, j < i ∧ i < j + 4 then [] else cs[i]?.toList

variable {cs rest : List Char} {a b c x : Char} {i j n : Nat}

/-! ## The beginning of a text -/

theorem digit?_eq_some_iff : digit? c = some n ↔ c.isDigit ∧ n = c.toNat - '0'.toNat := by
  unfold digit?
  by_cases h : c.isDigit <;> simp [h, eq_comm]

theorem leading?_eq_some_iff : leading? cs = some n ↔ ∃ a b c rest,
    cs = '\\' :: a :: b :: c :: rest ∧ a.isDigit ∧ b.isDigit ∧ c.isDigit ∧
      n = 100 * (a.toNat - '0'.toNat) + 10 * (b.toNat - '0'.toNat) + (c.toNat - '0'.toNat) := by
  constructor
  · intro h
    unfold leading? at h
    split at h
    next a b c rest =>
      simp only [Option.bind_eq_bind, Option.bind_eq_some_iff, digit?_eq_some_iff, Option.pure_def,
        Option.some.injEq] at h
      obtain ⟨_, ⟨ha, rfl⟩, _, ⟨hb, rfl⟩, _, ⟨hc, rfl⟩, rfl⟩ := h
      exact ⟨a, b, c, rest, rfl, ha, hb, hc, rfl⟩
    next => cases h
  · rintro ⟨a, b, c, rest, rfl, ha, hb, hc, rfl⟩
    simp [leading?, digit?, ha, hb, hc]

theorem ofDigits?_eq (a b c : Char) (rest : List Char) :
    ofDigits? a b c = (leading? ('\\' :: a :: b :: c :: rest)).map Char.ofNat := by
  unfold ofDigits?
  by_cases ha : a.isDigit <;> by_cases hb : b.isDigit <;> by_cases hc : c.isDigit <;>
    simp [leading?, digit?, Nat.ofDigitChars, ha, hb, hc]
  congr 1
  omega

theorem leading?_of_isDigit (h : c.isDigit) (rest : List Char) : leading? (c :: rest) = none := by
  unfold leading?
  split
  next heq =>
    cases heq
    cases h
  next => rfl

theorem toNat_ofNat_of_lt (h : n < 1000) : (Char.ofNat n).toNat = n := by
  have hvalid : n.isValidChar := .inl (by omega)
  rw [Char.ofNat, dif_pos hvalid]
  rfl

/-- The number of an escape is that of a character. -/
theorem ordinal_of_leading? (h : leading? cs = some n) : n < 1000 ∧ (Char.ofNat n).toNat = n := by
  obtain ⟨a, b, c, _, _, ha, hb, hc, rfl⟩ := leading?_eq_some_iff.1 h
  have hdigit : ∀ d : Char, d.isDigit → d.toNat - '0'.toNat ≤ 9 := fun d hd =>
    Nat.sub_le_sub_right (Char.isDigit_iff_toNat.1 hd).2 _
  have hlt : 100 * (a.toNat - '0'.toNat) + 10 * (b.toNat - '0'.toNat) + (c.toNat - '0'.toNat) <
      1000 := by
    have ha := hdigit a ha
    have hb := hdigit b hb
    have hc := hdigit c hc
    omega
  exact ⟨hlt, toNat_ofNat_of_lt hlt⟩

theorem digit?_digitChar (h : n < 10) : digit? (Nat.digitChar n) = some n := by
  have hall : ∀ k < 10, digit? (Nat.digitChar k) = some k := by decide
  exact hall n h

/-- Every number below 1000 has an escape. -/
theorem leading?_ofChar (h : x.toNat < 1000) (rest : List Char) :
    leading? (ofChar x ++ rest) = some x.toNat := by
  have hsum : 100 * (x.toNat / 100) + 10 * (x.toNat / 10 % 10) + x.toNat % 10 = x.toNat := by omega
  simp only [ofChar, List.cons_append, List.nil_append, leading?]
  rw [digit?_digitChar (by omega), digit?_digitChar (by omega), digit?_digitChar (by omega)]
  exact congrArg some hsum

/-! ## Decoding from the beginning -/

theorem decodeChars_escape (h : leading? ('\\' :: a :: b :: c :: rest) = some n) :
    decodeChars ('\\' :: a :: b :: c :: rest) = Char.ofNat n :: decodeChars rest := by
  rw [decodeChars, ofDigits?_eq a b c rest, h]
  rfl

theorem decodeChars_ofChar (h : x.toNat < 1000) (rest : List Char) :
    decodeChars (ofChar x ++ rest) = x :: decodeChars rest := by
  have hleading := leading?_ofChar h rest
  simp only [ofChar, List.cons_append, List.nil_append] at hleading ⊢
  rw [decodeChars_escape hleading, Char.ofNat_toNat]

theorem decodeChars_plain (h : leading? (x :: rest) = none) :
    decodeChars (x :: rest) = x :: decodeChars rest := by
  rw [decodeChars.eq_def]
  split
  next a b c rest heq =>
    cases heq
    rw [ofDigits?_eq a b c rest, h]
    rfl
  next heq =>
    cases heq
    rfl
  next heq => cases heq

/-- Induction along a text in which each escape is one step. -/
@[elab_as_elim] theorem escapeInduction {motive : List Char → Prop} (nil : motive [])
    (escape : ∀ a b c rest n, leading? ('\\' :: a :: b :: c :: rest) = some n → motive rest →
      motive ('\\' :: a :: b :: c :: rest))
    (plain : ∀ x rest, leading? (x :: rest) = none → motive rest → motive (x :: rest))
    (cs : List Char) : motive cs := by
  induction cs using decodeChars.induct with
  | case1 a b c rest x h ih =>
    rw [ofDigits?_eq a b c rest] at h
    obtain ⟨n, hn, _⟩ := Option.map_eq_some_iff.1 h
    exact escape a b c rest n hn ih
  | case2 a b c rest h ih =>
    rw [ofDigits?_eq a b c rest] at h
    exact plain _ _ (Option.map_eq_none_iff.1 h) ih
  | case3 x rest hne ih =>
    refine plain x rest ?_ ih
    unfold leading?
    split
    next heq =>
      cases heq
      exact absurd rfl (hne _ _ _ _ rfl)
    next => rfl
  | case4 => exact nil

/-! ## Positions -/

theorem mem_occurrences : i ∈ occurrences cs ↔ ∃ n, escapeAt? cs i = some n := by
  simp only [occurrences, List.mem_filter, List.mem_range, Option.isSome_iff_exists,
    and_iff_right_iff_imp]
  rintro ⟨n, h⟩
  by_contra hlt
  rw [escapeAt?, List.drop_of_length_le (Nat.not_lt.1 hlt)] at h
  cases h

/-- Between two escapes there are the digits of the first. -/
theorem add_four_le_of_occurrences (hi : i ∈ occurrences cs) (hj : j ∈ occurrences cs)
    (h : i < j) : i + 4 ≤ j := by
  obtain ⟨n, hi⟩ := mem_occurrences.1 hi
  obtain ⟨k, hj⟩ := mem_occurrences.1 hj
  obtain ⟨a, b, c, rest, hdrop, ha, hb, hc, _⟩ := leading?_eq_some_iff.1 hi
  by_contra hlt
  have hj' : leading? ((cs.drop i).drop (j - i)) = some k := by
    rw [List.drop_drop, Nat.add_sub_cancel' (Nat.le_of_lt h)]
    exact hj
  rw [hdrop] at hj'
  obtain hd | hd | hd : j - i = 1 ∨ j - i = 2 ∨ j - i = 3 := by omega
  · rw [hd, List.drop_one, List.tail_cons, leading?_of_isDigit ha] at hj'
    cases hj'
  · rw [hd] at hj'
    cases (leading?_of_isDigit hb _).symm.trans hj'
  · rw [hd] at hj'
    cases (leading?_of_isDigit hc _).symm.trans hj'

theorem occurrences_cons (x : Char) (rest : List Char) :
    occurrences (x :: rest) =
      (if (leading? (x :: rest)).isSome then [0] else []) ++ (occurrences rest).map (· + 1) := by
  rw [occurrences, List.length_cons, List.range_succ_eq_map, List.filter_cons, List.filter_map]
  by_cases h : (leading? (x :: rest)).isSome <;> simp [escapeAt?, occurrences, h, Function.comp_def]

theorem occurrences_plain (h : leading? (x :: rest) = none) :
    occurrences (x :: rest) = (occurrences rest).map (· + 1) := by
  simp [occurrences_cons, h]

theorem occurrences_escape (h : leading? ('\\' :: a :: b :: c :: rest) = some n) :
    occurrences ('\\' :: a :: b :: c :: rest) = 0 :: (occurrences rest).map (· + 4) := by
  obtain ⟨_, _, _, _, heq, ha, hb, hc, _⟩ := leading?_eq_some_iff.1 h
  cases heq
  rw [occurrences_cons, h, occurrences_plain (leading?_of_isDigit ha _),
    occurrences_plain (leading?_of_isDigit hb _), occurrences_plain (leading?_of_isDigit hc _)]
  simp [Function.comp_def]

theorem length_decodeChars (cs : List Char) :
    (decodeChars cs).length + 3 * (occurrences cs).length = cs.length := by
  induction cs using escapeInduction with
  | nil => rfl
  | escape a b c rest n h ih =>
    rw [decodeChars_escape h, occurrences_escape h]
    simp only [List.length_cons, List.length_map]
    omega
  | plain x rest h ih =>
    rw [decodeChars_plain h, occurrences_plain h]
    simp only [List.length_cons, List.length_map]
    omega

theorem decodeChars_of_occurrences (h : occurrences cs = []) : decodeChars cs = cs := by
  induction cs using escapeInduction with
  | nil => rfl
  | escape a b c rest n hn ih =>
    rw [occurrences_escape hn] at h
    cases h
  | plain x rest hx ih =>
    rw [occurrences_plain hx, List.map_eq_nil_iff] at h
    rw [decodeChars_plain hx, ih h]

theorem decodeChars_eq_self_iff : decodeChars cs = cs ↔ occurrences cs = [] := by
  refine ⟨?_, decodeChars_of_occurrences⟩
  intro h
  have hlength := length_decodeChars cs
  rw [h] at hlength
  exact List.length_eq_zero_iff.1 (by omega)

/-! ## Decoding position by position -/

theorem becomes_of_escapeAt? (h : escapeAt? cs i = some n) : becomes cs i = [Char.ofNat n] := by
  rw [becomes, h]

theorem becomes_of_inside (hj : j ∈ occurrences cs) (h : j < i ∧ i < j + 4) :
    becomes cs i = [] := by
  cases hi : escapeAt? cs i with
  | some n =>
    have hle := add_four_le_of_occurrences hj (mem_occurrences.2 ⟨n, hi⟩) h.1
    omega
  | none =>
    simp only [becomes, hi]
    exact if_pos ⟨j, hj, h⟩

/-- A position behind the first step of a text is a position of what follows. -/
theorem becomes_add {k : Nat} (hdrop : cs.drop k = rest)
    (hocc : ∀ j, j + k ∈ occurrences cs ↔ j ∈ occurrences rest)
    (hbefore : ∀ j ∈ occurrences cs, j < k → j + 4 ≤ k) (i : Nat) :
    becomes cs (i + k) = becomes rest i := by
  have hescape : escapeAt? cs (i + k) = escapeAt? rest i := by
    rw [escapeAt?, escapeAt?, ← hdrop, List.drop_drop, Nat.add_comm]
  have hinside : (∃ j ∈ occurrences cs, j < i + k ∧ i + k < j + 4) ↔
      ∃ j ∈ occurrences rest, j < i ∧ i < j + 4 := by
    constructor
    · rintro ⟨j, hj, hlt, hlt'⟩
      have hk : k ≤ j := by
        by_contra hjk
        have hle := hbefore j hj (Nat.not_le.1 hjk)
        omega
      obtain ⟨d, rfl⟩ := Nat.exists_eq_add_of_le' hk
      exact ⟨d, (hocc d).1 hj, by omega, by omega⟩
    · rintro ⟨j, hj, hlt, hlt'⟩
      exact ⟨j + k, (hocc j).2 hj, by omega, by omega⟩
  have hchar : cs[i + k]? = rest[i]? := by
    rw [← hdrop, List.getElem?_drop, Nat.add_comm]
  simp only [becomes, hescape, hinside, hchar]

theorem flatMap_range_succ {α : Type} (f : Nat → List α) (n : Nat) :
    (List.range (n + 1)).flatMap f = f 0 ++ (List.range n).flatMap fun i => f (i + 1) := by
  rw [List.range_succ_eq_map, List.flatMap_cons, List.flatMap_map]

/-- A text is decoded position by position, without regard to what other positions become. -/
theorem decodeChars_eq_flatMap (cs : List Char) :
    decodeChars cs = (List.range cs.length).flatMap (becomes cs) := by
  induction cs using escapeInduction with
  | nil => rfl
  | escape a b c rest n h ih =>
    have hocc := occurrences_escape h
    have hfirst : 0 ∈ occurrences ('\\' :: a :: b :: c :: rest) := by simp [hocc]
    have hdrop : ('\\' :: a :: b :: c :: rest).drop 4 = rest := rfl
    have hrest := becomes_add hdrop (by simp [hocc]) (by simp [hocc])
    simp only [List.length_cons, flatMap_range_succ, hrest]
    rw [decodeChars_escape h, becomes_of_escapeAt? (i := 0) h,
      becomes_of_inside hfirst (i := 1) (by omega), becomes_of_inside hfirst (i := 2) (by omega),
      becomes_of_inside hfirst (i := 3) (by omega), ← ih]
    rfl
  | plain x rest h ih =>
    have hocc := occurrences_plain h
    have hdrop : (x :: rest).drop 1 = rest := rfl
    have hrest := becomes_add hdrop (by simp [hocc]) (by simp [hocc])
    have hfirst : becomes (x :: rest) 0 = [x] := by
      have hnone : escapeAt? (x :: rest) 0 = none := h
      simp [becomes, hnone]
    rw [List.length_cons, flatMap_range_succ, decodeChars_plain h, hfirst]
    simp only [hrest, ← ih]
    rfl

end Text.Escape

open Text.Escape

/-! ## Printing -/

namespace Machine

variable {ρ : Type} [Reader ρ] {p : Program} {m : Machine ρ Sink} {s : String}

omit [Reader ρ] in
theorem copied_of_str {src : Symbol} (h : m.value src = .ok (.str s)) :
    m.copied src = .ok (.str s) :=
  copied_eq_ok_iff.2 ⟨h, by simp⟩

/-- A string is written to the output as it is decoded. -/
theorem exec_write (order : Int64) (src : Symbol) (h : m.value src = .ok (.str s)) :
    m.exec p ⟨order, .write src⟩ =
      m.written .out (m.stdout.write (decode s)).1 (m.stdout.write (decode s)).2 := by
  rcases hw : m.stdout.write (decode s) with ⟨sink, r⟩
  cases r with
  | ok => exact exec_of_rule (.write (copied_of_str h) (.call rfl hw))
  | error f => exact exec_of_rule (.notWritten (copied_of_str h) (.call rfl hw))

theorem exec_write_of_unlimited (order : Int64) (src : Symbol) (h : m.value src = .ok (.str s))
    (hl : m.stdout.limit = none) :
    m.exec p ⟨order, .write src⟩ =
      .next { m with stdout := ⟨m.stdout.contents ++ (decode s).toUTF8, none⟩ } := by
  rw [exec_write order src h, Sink.write_unlimited hl]
  rfl

/-- What is read as a string and written is added to the output as it is decoded. -/
theorem execRow_read_write (order order' : Int64) {v : VarRef}
    (h : (Reader.read .string m.input).1 = some (.str s)) (hv : m.memory.Has v)
    (hl : m.stdout.limit = none) :
    ∃ m', m.execRow p ⟨order, .read v .string⟩ [⟨order', .write (.var v)⟩] = .next m' ∧
      m'.stdout.contents = m.stdout.contents ++ (decode s).toUTF8 := by
  obtain ⟨memory, hs⟩ := Memory.exists_store_iff.2 hv
  have hread : m.nextRead .string = .str s := by rw [nextRead, h, Option.getD_some]
  have hexec : m.exec p ⟨order, .read v .string⟩ =
      .next { m with memory, input := m.restInput .string } := exec_of_rule (.read (hread ▸ hs))
  have hload : memory.load v = .ok (.str s) := Memory.load_of_store hs
  have hwrite := exec_write_of_unlimited (p := p) order' (.var v)
    (m := advanced { m with memory, input := m.restInput .string }) hload hl
  exact ⟨_, (execRow_of_next hexec).trans hwrite, rfl⟩

end Machine

theorem append_toUTF8_inj {contents : ByteArray} {s t : String} :
    contents ++ s.toUTF8 = contents ++ t.toUTF8 ↔ s = t := by
  rw [ByteArray.append_right_inj]
  exact String.toByteArray_inj

/-- The escapes of a text are disjoint, and each of them stands for the one character whose ordinal
it writes, which may be any below 1000. Decoding puts this character in the place of the escape and
keeps all else, and what it puts there is never looked at again: each position becomes what the
text as given says. So a text loses three characters for each escape and is kept exactly if it has
none, and a line that is read as a string and written is echoed exactly if it has none. -/
theorem decoding_replaces_escapes (raw : String) :
    (∀ i ∈ occurrences raw.toList, ∀ j ∈ occurrences raw.toList, i < j → i + 4 ≤ j) ∧
    (∀ i n, escapeAt? raw.toList i = some n → n < 1000 ∧ (Char.ofNat n).toNat = n) ∧
    (∀ x : Char, x.toNat < 1000 → decodeChars (ofChar x) = [x]) ∧
    (decode raw).toList = (List.range raw.length).flatMap (becomes raw.toList) ∧
    (decode raw).length + 3 * (occurrences raw.toList).length = raw.length ∧
    (decode raw = raw ↔ occurrences raw.toList = []) ∧
    ∀ {ρ : Type} [Reader ρ] (p : Program) (m : Machine ρ Sink) (v : VarRef) (order order' : Int64),
      (Reader.read .string m.input).1 = some (.str raw) → m.memory.Has v →
      m.stdout.limit = none →
      ∃ m', m.execRow p ⟨order, .read v .string⟩ [⟨order', .write (.var v)⟩] = .next m' ∧
        m'.stdout.contents = m.stdout.contents ++ (decode raw).toUTF8 ∧
        (m'.stdout.contents = m.stdout.contents ++ raw.toUTF8 ↔ occurrences raw.toList = []) := by
  have hself : decode raw = raw ↔ occurrences raw.toList = [] := by
    rw [← String.toList_inj, toList_decode, decodeChars_eq_self_iff]
  refine ⟨fun i hi j hj => add_four_le_of_occurrences hi hj, fun i n => ordinal_of_leading?, ?_,
    ?_, ?_, hself, ?_⟩
  · intro x hx
    exact decodeChars_ofChar hx []
  · rw [toList_decode, decodeChars_eq_flatMap, String.length_toList]
  · rw [← String.length_toList, ← String.length_toList, toList_decode]
    exact length_decodeChars raw.toList
  · intro ρ _ p m v order order' hread hv hl
    obtain ⟨m', hrow, hcontents⟩ := Machine.execRow_read_write (p := p) order order' hread hv hl
    refine ⟨m', hrow, hcontents, ?_⟩
    rw [hcontents, append_toUTF8_inj, hself]

/-- The escape of a backslash with digits behind it, which is not decoded again. -/
theorem decoding_replaces_escapes_backslash :
    ∃ (p : Program) (m m' : Machine) (n : Nat),
      Program.ofInstructions [⟨1, .defVar, [.symbol (.var ⟨.gf, "s"⟩)]⟩,
        ⟨2, .read, [.symbol (.var ⟨.gf, "s"⟩), .type .string]⟩,
        ⟨3, .write, [.symbol (.var ⟨.gf, "s"⟩)]⟩] = .ok p ∧
      (Machine.start ⟨"\\092065\n".toUTF8.data.toList⟩ (.empty none) (.empty none) :
        Machine).run p 1 = .running m ∧
      m.run p (n + 1) = (Outcome.next m').progress ∧
      m'.stdout.contents = m.stdout.contents ++ "\\065".toUTF8 ∧
      m'.stdout.contents ≠ m.stdout.contents ++ "\\092065".toUTF8 := by
  let v : VarRef := ⟨.gf, "s"⟩
  let p : Program := ⟨#[⟨1, .defVar v⟩, ⟨2, .read v .string⟩, ⟨3, .write (.var v)⟩], []⟩
  have hp : Program.ofInstructions _ = .ok p :=
    Program.ofInstructions_of_perm p.lines.toList (.refl _) (by decide) (by decide) rfl
  let m : Machine := ((Machine.start ⟨"\\092065\n".toUTF8.data.toList⟩ (.empty none) (.empty none) :
    Machine).run p 1).machine
  have hstands : p.StandsAt m.pc [⟨2, .read v .string⟩, ⟨3, .write (.var v)⟩] := ⟨rfl, rfl, trivial⟩
  have hread : (Reader.read .string m.input).1 = some (.str "\\092065") := by decide +kernel
  have hdeclared : m.memory.Has v := ⟨m.memory.global, rfl, by decide⟩
  have hdecode : decode "\\092065" = "\\065" := by decide +kernel
  obtain ⟨_, _, _, _, _, _, hecho⟩ := decoding_replaces_escapes "\\092065"
  obtain ⟨m', hrow, hcontents, hsame⟩ := hecho p m v 2 3 hread hdeclared rfl
  obtain ⟨n, _, hrun⟩ := Machine.exists_run_eq_execRow hstands
  rw [hrow] at hrun
  refine ⟨p, m, m', n, hp, rfl, hrun, hdecode ▸ hcontents, ?_⟩
  intro h
  exact absurd (hsame.1 h) (by decide +kernel)

end Ippcode
