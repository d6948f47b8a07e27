import Ippcode.Json
import Mathlib.Data.List.Chain
import Mathlib.Data.List.Forall2
import Mathlib.Data.List.TakeWhile
import Mathlib.Tactic.IntervalCases

/-! # JSON texts

The texts of a JSON value: its tokens in order, each in one of its spellings, with any blanks
around them. A character of a string is spelled as itself, by a short escape, by a code unit or by
a surrogate pair. Every text of a value is read as that value, and its rendering is one of them.
-/
namespace Ippcode.Json

def IsSpace (c : Char) : Prop := c ∈ [' ', '\t', '\n', '\r']

/-- A digit of base 16, in either case. -/
def IsHexDigit (k : Nat) (c : Char) : Prop :=
  k < 16 ∧ (c = Nat.digitChar k ∨ c = (Nat.digitChar k).toUpper)

/-- Four digits that write a code unit. -/
def UnitSpelling (unit : Nat) (ds : List Char) : Prop :=
  List.Forall₂ IsHexDigit [unit / 0x1000, unit / 0x100 % 16, unit / 0x10 % 16, unit % 16] ds

/-- The letters of the short escapes and the characters that they stand for. -/
def shortEscapes : List (Char × Char) :=
  [('"', '"'), ('\\', '\\'), ('/', '/'), ('b', '\x08'), ('f', '\x0c'), ('n', '\n'), ('r', '\r'),
   ('t', '\t')]

/-- The ways to write a character in a string. -/
inductive CharSpelling : Char → List Char → Prop
  | plain {c : Char} (quote : c ≠ '"') (backslash : c ≠ '\\') (control : 0x20 ≤ c.toNat) :
      CharSpelling c [c]
  | short {c x : Char} (escape : (x, c) ∈ shortEscapes) : CharSpelling c ['\\', x]
  | unit {c : Char} {ds : List Char} (digits : UnitSpelling c.toNat ds) :
      CharSpelling c ('\\' :: 'u' :: ds)
  | pair {c : Char} {hi lo : Nat} {ds es : List Char} (code : c.toNat = 0x10000 + hi * 0x400 + lo)
      (bound : lo < 0x400) (high : UnitSpelling (0xD800 + hi) ds)
      (low : UnitSpelling (0xDC00 + lo) es) :
      CharSpelling c ('\\' :: 'u' :: ds ++ '\\' :: 'u' :: es)

namespace Token

/-- The ways to write a token: only strings have more than one. -/
def Spelling : Token → List Char → Prop
  | .string s, cs =>
    ∃ ws, List.Forall₂ CharSpelling s.toList ws ∧ cs = '"' :: (ws.flatten ++ ['"'])
  | .number literal, cs => Number.isValid literal.toList ∧ cs = literal.toList
  | t, cs => cs = t.chars

/-- Tokens written one after the other, with blanks before, between and after them. -/
inductive Spellings : List Token → List Char → Prop
  | nil {space : List Char} (blank : ∀ c ∈ space, IsSpace c) : Spellings [] space
  | cons {t : Token} {ts : List Token} {space cs rest : List Char}
      (blank : ∀ c ∈ space, IsSpace c) (first : t.Spelling cs) (others : Spellings ts rest) :
      Spellings (t :: ts) (space ++ (cs ++ rest))

/-- Tokens that only another character can end. -/
def bare : Token → Bool
  | .null | .bool _ | .number _ => true
  | _ => false

def Apart (t u : Token) : Prop := t.bare → ¬ u.bare

end Token

/-- The texts of a value. -/
def Spelling (j : Json) (text : String) : Prop := Token.Spellings j.tokens text.toList

/-! ## The lexer -/

theorem hexDigit?_of_isHexDigit {k : Nat} {c : Char} (h : IsHexDigit k c) :
    hexDigit? c = some k := by
  obtain ⟨hk, rfl | rfl⟩ := h <;> interval_cases k <;> decide

namespace Lexer

variable {l l₁ l₂ : Lexer} {c : Char} {cs ds : List Char} {ts : List Token}

/-- Characters that lead the lexer from one state to another. -/
def Reads (l : Lexer) (cs : List Char) (l₁ : Lexer) : Prop := cs.foldlM step l = some l₁

theorem Reads.nil (l : Lexer) : l.Reads [] l := rfl

theorem Reads.cons (h : l.step c = some l₁) (hr : l₁.Reads cs l₂) : l.Reads (c :: cs) l₂ := by
  unfold Reads at *
  rw [List.foldlM_cons, h, Option.bind_eq_bind, Option.bind_some, hr]

theorem Reads.append (h : l.Reads cs l₁) (hr : l₁.Reads ds l₂) : l.Reads (cs ++ ds) l₂ := by
  unfold Reads at *
  rw [List.foldlM_append, h, Option.bind_eq_bind, Option.bind_some, hr]

theorem finish?_of_between (h : l.mode = .between) : l.finish? = some l := by simp [finish?, h]

theorem mode_of_finish? (h : l.finish? = some l₁) : l₁.mode = .between := by
  cases hm : l.mode with
  | between =>
    obtain rfl : l = l₁ := by simpa [finish?_of_between hm] using h
    exact hm
  | word cs | number cs =>
    simp only [finish?, hm, Option.map_eq_some_iff] at h
    obtain ⟨t, _, rfl⟩ := h
    rfl
  | _ => simp [finish?, hm] at h

/-- A character that continues neither a word nor a number ends what can be ended. -/
theorem step_of_finish? (h : l.finish? = some l₁) (hlower : ¬ c.isLower)
    (hpart : ¬ Number.isPart c) : l.step c = l₁.begin? c := by
  cases hm : l.mode with
  | between =>
    obtain rfl : l = l₁ := by simpa [finish?_of_between hm] using h
    simp only [step, hm]
  | word cs => simp only [step, hm, hlower, h, Bool.false_eq_true, if_false, Option.bind_some]
  | number cs => simp only [step, hm, hpart, h, Bool.false_eq_true, if_false, Option.bind_some]
  | _ => simp [finish?, hm] at h

theorem delimits_of_isSpace (h : IsSpace c) :
    ¬ c.isLower ∧ ¬ Number.isPart c ∧ l.begin? c = some l := by
  simp only [IsSpace, List.mem_cons, List.not_mem_nil, or_false] at h
  rcases h with rfl | rfl | rfl | rfl <;> exact ⟨by decide, by decide, rfl⟩

/-- Blanks end what can be ended, and nothing else happens. -/
theorem reads_space {space : List Char} (hspace : ∀ c ∈ space, IsSpace c)
    (h : l.finish? = some l₁) :
    ∃ l₂, l.Reads space l₂ ∧ l₂.finish? = some l₁ ∧ (l.mode = .between → l₂.mode = .between) := by
  induction space generalizing l with
  | nil => exact ⟨l, .nil l, h, id⟩
  | cons c space ih =>
    obtain ⟨hc, hspace⟩ := List.forall_mem_cons.1 hspace
    obtain ⟨hlower, hpart, hbegin⟩ := delimits_of_isSpace hc
    have hbetween := mode_of_finish? h
    obtain ⟨l₂, hr, hf, hm⟩ := ih hspace (finish?_of_between hbetween)
    exact ⟨l₂, .cons ((step_of_finish? h hlower hpart).trans hbegin) hr, hf, fun _ => hm hbetween⟩

/-! ## Strings -/

/-- Four digits complete a code unit. -/
theorem reads_unit {unit : Nat} {high : Option Nat} {m : Mode} (hds : UnitSpelling unit ds)
    (hm : unitMode? cs high unit = some m) :
    Reads ⟨.unit cs high 4 0, ts⟩ ds ⟨m, ts⟩ := by
  rcases hds with _ | ⟨h₁, _ | ⟨h₂, _ | ⟨h₃, _ | ⟨h₄, _ | _⟩⟩⟩⟩
  have hbound : unit / 0x1000 < 16 := h₁.1
  have hunit : ((unit / 0x1000 * 16 + unit / 0x100 % 16) * 16 + unit / 0x10 % 16) * 16 + unit % 16
      = unit := by omega
  simp [Reads, step, goto, hexDigit?_of_isHexDigit h₁, hexDigit?_of_isHexDigit h₂,
    hexDigit?_of_isHexDigit h₃, hexDigit?_of_isHexDigit h₄, hunit, hm]

theorem reads_char {w : List Char} (h : CharSpelling c w) :
    Reads ⟨.string cs, ts⟩ w ⟨.string (c :: cs), ts⟩ := by
  -- no character is a surrogate, so a unit of its own is never taken for half a pair
  have hvalid : c.toNat < 0xD800 ∨ 0xDFFF < c.toNat ∧ c.toNat < 0x110000 := c.valid
  cases h with
  | plain quote backslash control =>
    have hcontrol : ¬ c.toNat < 0x20 := by omega
    simp [Reads, step, goto, quote, backslash, hcontrol]
  | short escape =>
    simp only [shortEscapes, List.mem_cons, Prod.mk.injEq, List.not_mem_nil, or_false] at escape
    rcases escape with ⟨rfl, rfl⟩ | ⟨rfl, rfl⟩ | ⟨rfl, rfl⟩ | ⟨rfl, rfl⟩ | ⟨rfl, rfl⟩ | ⟨rfl, rfl⟩ |
      ⟨rfl, rfl⟩ | ⟨rfl, rfl⟩ <;> rfl
  | unit digits =>
    have hhigh : isHigh c.toNat = false := by simp [isHigh]; omega
    have hlow : isLow c.toNat = false := by simp [isLow]; omega
    exact .cons rfl (.cons rfl (reads_unit digits (by simp [unitMode?, hhigh, hlow])))
  | @pair hi lo ds es code bound high low =>
    have hhigh : isHigh (0xD800 + hi) = true := by simp [isHigh]; omega
    have hlow : isLow (0xDC00 + lo) = true := by simp [isLow]; omega
    have hc : Char.ofNat (0x10000 + hi * 0x400 + lo) = c := by rw [← code, Char.ofNat_toNat]
    have hfirst : unitMode? cs none (0xD800 + hi) = some (.pair cs (0xD800 + hi)) := by
      rw [unitMode?, if_pos hhigh]
    have hsecond : unitMode? cs (some (0xD800 + hi)) (0xDC00 + lo) = some (.string (c :: cs)) := by
      simp [unitMode?, hlow, hc]
    refine .cons rfl (.cons rfl ((reads_unit high hfirst).append ?_))
    exact .cons rfl (.cons rfl (reads_unit low hsecond))

theorem reads_chars {s : List Char} {ws : List (List Char)} (h : List.Forall₂ CharSpelling s ws) :
    Reads ⟨.string cs, ts⟩ ws.flatten ⟨.string (s.reverse ++ cs), ts⟩ := by
  induction h generalizing cs with
  | nil => exact .nil _
  | cons hc _ ih =>
    rw [List.flatten_cons, List.reverse_cons, List.append_assoc, List.singleton_append]
    exact (reads_char hc).append ih

/-! ## Numbers and words -/

theorem isPart_of_digitsThen {rest : List Char → Bool}
    (hrest : ∀ {ds}, rest ds → ∀ c ∈ ds, Number.isPart c) (h : Number.digitsThen rest cs) :
    ∀ c ∈ cs, Number.isPart c := by
  intro c hc
  have htail : rest (cs.dropWhile Char.isDigit) := by simp_all [Number.digitsThen]
  rw [← List.takeWhile_append_dropWhile (p := Char.isDigit) (l := cs)] at hc
  rcases List.mem_append.1 hc with hdigit | hc
  · simp [Number.isPart, List.mem_takeWhile_imp hdigit]
  · exact hrest htail c hc

theorem isPart_of_isEmpty (h : cs.isEmpty) : ∀ c ∈ cs, Number.isPart c := by simp_all

theorem isPart_of_exponent (h : Number.exponent cs) : ∀ c ∈ cs, Number.isPart c := by
  have hletter {e : Char} (he : (e == 'e' || e == 'E') = true) : Number.isPart e := by
    simp only [Bool.or_eq_true, beq_iff_eq] at he
    rcases he with rfl | rfl <;> decide
  unfold Number.exponent at h
  split at h
  · simp
  · simp only [Bool.and_eq_true] at h
    simp only [List.forall_mem_cons]
    exact ⟨hletter h.1, by decide, isPart_of_digitsThen isPart_of_isEmpty h.2⟩
  · simp only [Bool.and_eq_true] at h
    simp only [List.forall_mem_cons]
    exact ⟨hletter h.1, by decide, isPart_of_digitsThen isPart_of_isEmpty h.2⟩
  · simp only [Bool.and_eq_true] at h
    simp only [List.forall_mem_cons]
    exact ⟨hletter h.1, isPart_of_digitsThen isPart_of_isEmpty h.2⟩

theorem isPart_of_fraction (h : Number.fraction cs) : ∀ c ∈ cs, Number.isPart c := by
  unfold Number.fraction at h
  split at h
  · exact List.forall_mem_cons.2 ⟨by decide, isPart_of_digitsThen isPart_of_exponent h⟩
  · exact isPart_of_exponent h

theorem isPart_of_unsigned (h : Number.unsigned cs) : ∀ c ∈ cs, Number.isPart c := by
  unfold Number.unsigned at h
  split at h
  · exact List.forall_mem_cons.2 ⟨by decide, isPart_of_fraction h⟩
  · exact isPart_of_digitsThen isPart_of_fraction h

theorem isPart_of_isValid (h : Number.isValid cs) : ∀ c ∈ cs, Number.isPart c := by
  unfold Number.isValid at h
  split at h
  · exact List.forall_mem_cons.2 ⟨by decide, isPart_of_unsigned h⟩
  · exact isPart_of_unsigned h

theorem exists_digit_of_digitsThen {rest : List Char → Bool} (h : Number.digitsThen rest cs) :
    ∃ c ds, cs = c :: ds ∧ c.isDigit := by
  cases cs with
  | nil => simp [Number.digitsThen] at h
  | cons c ds =>
    by_cases hc : c.isDigit
    · exact ⟨c, ds, rfl, hc⟩
    · simp [Number.digitsThen, hc] at h

theorem exists_digit_of_unsigned (h : Number.unsigned cs) : ∃ c ds, cs = c :: ds ∧ c.isDigit := by
  unfold Number.unsigned at h
  split at h
  · exact ⟨_, _, rfl, by decide⟩
  · exact exists_digit_of_digitsThen h

theorem not_isLower_of_isDigit (h : c.isDigit) : ¬ c.isLower := by
  intro hlower
  have hdigit : c.toNat ≤ 57 := (Char.isDigit_iff_toNat.1 h).2
  have hbounds := Bool.and_eq_true_iff.1 hlower
  have hletter : 97 ≤ c.toNat := UInt32.le_iff_toNat_le.1 (of_decide_eq_true hbounds.1)
  omega

theorem begin?_of_isDigit (h : c.isDigit) : l.begin? c = some (l.goto (.number [c])) := by
  unfold begin?
  split
  case h_12 => simp [not_isLower_of_isDigit h, Number.isPart, h]
  all_goals exact absurd h (by decide)

theorem begin?_of_isValid (h : Number.isValid (c :: cs)) :
    l.begin? c = some (l.goto (.number [c])) := by
  unfold Number.isValid at h
  split at h
  · next heq =>
    obtain ⟨rfl, rfl⟩ := List.cons.inj heq
    rfl
  · obtain ⟨c', ds, heq, hc⟩ := exists_digit_of_unsigned h
    obtain ⟨rfl, rfl⟩ := List.cons.inj heq
    exact begin?_of_isDigit hc

theorem reads_parts (h : ∀ c ∈ ds, Number.isPart c) :
    Reads ⟨.number cs, ts⟩ ds ⟨.number (ds.reverse ++ cs), ts⟩ := by
  induction ds generalizing cs with
  | nil => exact .nil _
  | cons c ds ih =>
    obtain ⟨hc, hds⟩ := List.forall_mem_cons.1 h
    rw [List.reverse_cons, List.append_assoc, List.singleton_append]
    exact .cons (by simp [step, goto, hc]) (ih hds)

theorem reads_number (h : Number.isValid cs) :
    Reads ⟨.between, ts⟩ cs ⟨.number cs.reverse, ts⟩ := by
  cases cs with
  | nil => simp [Number.isValid, Number.unsigned, Number.digitsThen] at h
  | cons c cs =>
    obtain ⟨_, hcs⟩ := List.forall_mem_cons.1 (isPart_of_isValid h)
    rw [List.reverse_cons]
    exact .cons (begin?_of_isValid h) (reads_parts hcs)

/-! ## Tokens -/

theorem reads_bare {t : Token} (hbare : t.bare) (ht : t.Spelling cs) :
    ∃ l₂, Reads ⟨.between, ts⟩ cs l₂ ∧ l₂.finish? = some ⟨.between, t :: ts⟩ := by
  cases t with
  | null =>
    obtain rfl := ht
    exact ⟨⟨.word ['l', 'l', 'u', 'n'], ts⟩, rfl, rfl⟩
  | bool b =>
    obtain rfl := ht
    cases b with
    | false => exact ⟨⟨.word ['e', 's', 'l', 'a', 'f'], ts⟩, rfl, rfl⟩
    | true => exact ⟨⟨.word ['e', 'u', 'r', 't'], ts⟩, rfl, rfl⟩
  | number literal =>
    obtain ⟨hvalid, rfl⟩ := ht
    exact ⟨_, reads_number hvalid, by simp [finish?, numberToken?, hvalid, emit]⟩
  | _ => simp [Token.bare] at hbare

theorem reads_string {s : String} {ws : List (List Char)}
    (hws : List.Forall₂ CharSpelling s.toList ws) (h : l.finish? = some l₁) :
    l.Reads ('"' :: (ws.flatten ++ ['"'])) (l₁.emit (.string s)) := by
  have hopen : l.step '"' = some ⟨.string [], l₁.tokens⟩ :=
    step_of_finish? h (by decide) (by decide)
  have hclose : step ⟨.string (s.toList.reverse ++ []), l₁.tokens⟩ '"' =
      some (l₁.emit (.string s)) := by
    simp [step, emit]
  exact .cons hopen ((reads_chars hws).append (.cons hclose (.nil _)))

/-- A token is read up to its end, which for a bare token is still open. -/
theorem reads_token {t : Token} (ht : t.Spelling cs) (h : l.finish? = some l₁)
    (hbare : t.bare → l.mode = .between) :
    ∃ l₂, l.Reads cs l₂ ∧ l₂.finish? = some (l₁.emit t) ∧ (¬ t.bare → l₂.mode = .between) := by
  have hpunctuation {c : Char} (hlower : ¬ c.isLower) (hpart : ¬ Number.isPart c)
      (hbegin : l₁.begin? c = some (l₁.emit t)) : l.Reads [c] (l₁.emit t) :=
    .cons ((step_of_finish? h hlower hpart).trans hbegin) (.nil _)
  cases t with
  | openBracket | closeBracket | openBrace | closeBrace | comma | colon =>
    obtain rfl := ht
    exact ⟨_, hpunctuation (by decide) (by decide) rfl, rfl, fun _ => rfl⟩
  | null | bool _ | number _ =>
    have hl := finish?_of_between (hbare rfl)
    obtain ⟨mode, tokens⟩ := l
    obtain rfl := hbare rfl
    obtain rfl := Option.some.inj (hl.symm.trans h)
    obtain ⟨l₂, hr, hf⟩ := reads_bare rfl ht
    exact ⟨l₂, hr, hf, fun hb => absurd rfl hb⟩
  | string s =>
    obtain ⟨ws, hws, rfl⟩ := ht
    exact ⟨_, reads_string hws h, rfl, fun _ => rfl⟩

/-- Tokens of which no two bare ones meet are read one after the other. -/
theorem reads_tokens (hts : Token.Spellings ts cs) (hapart : ts.IsChain Token.Apart)
    (h : l.finish? = some l₁) (hbare : ∀ t ∈ ts.head?, t.bare → l.mode = .between) :
    ∃ l₂, l.Reads cs l₂ ∧ l₂.finish? = some ⟨.between, ts.reverse ++ l₁.tokens⟩ := by
  induction hts generalizing l l₁ with
  | @nil space blank =>
    obtain ⟨l₂, hr, hf, _⟩ := reads_space blank h
    have hl₁ : l₁ = ⟨.between, l₁.tokens⟩ := by rw [← mode_of_finish? h]
    exact ⟨l₂, hr, by rw [hf, List.reverse_nil, List.nil_append, ← hl₁]⟩
  | @cons t ts space cs rest blank first others ih =>
    obtain ⟨la, hra, hfa, hma⟩ := reads_space blank h
    obtain ⟨lb, hrb, hfb, hmb⟩ := reads_token first hfa fun ht => hma (hbare t rfl ht)
    -- only a bare token is still open, and no bare one follows it
    have hnext : ∀ u ∈ ts.head?, u.bare → lb.mode = .between := by
      intro u hu hubare
      refine hmb fun htbare => ?_
      exact hapart.rel_head? hu htbare hubare
    obtain ⟨lc, hrc, hfc⟩ := ih hapart.tail hfb hnext
    refine ⟨lc, hra.append (hrb.append hrc), ?_⟩
    rw [hfc, emit, List.reverse_cons, List.append_assoc, List.singleton_append]

end Lexer

/-- Every spelling of tokens of which no two bare ones meet is scanned as these tokens. -/
theorem Token.scan?_of_spellings {ts : List Token} {text : String} (h : Spellings ts text.toList)
    (hapart : ts.IsChain Apart) : scan? text = some ts := by
  obtain ⟨l, hr, hf⟩ := Lexer.reads_tokens (l := Lexer.start) h hapart rfl fun _ _ _ => rfl
  rw [scan?, hr, Option.bind_some, hf]
  simp [Lexer.start]

/-! ## The tokens of a value -/

theorem not_bare_head?_moreItems (js : List Json) : ∀ t ∈ (moreItems js).head?, ¬ t.bare := by
  cases js <;> simp [moreItems, Token.bare]

theorem not_bare_head?_moreMembers (ms : List (String × Json)) :
    ∀ t ∈ (moreMembers ms).head?, ¬ t.bare := by
  rcases ms with _ | ⟨⟨_, _⟩, _⟩ <;> simp [moreMembers, Token.bare]

/-- What follows a token that is not bare may be anything. -/
theorem Token.isChain_cons {t : Token} {ts : List Token} (ht : ¬ t.bare) (h : ts.IsChain Apart) :
    (t :: ts).IsChain Apart :=
  h.cons fun _ _ hbare => absurd hbare ht

theorem Token.isChain_key {key : String} {ts : List Token} (h : ts.IsChain Apart) :
    (.string key :: .colon :: ts).IsChain Apart :=
  isChain_cons (by simp [bare]) (isChain_cons (by simp [bare]) h)

theorem Token.isChain_append {ts us : List Token} (hts : ts.IsChain Apart) (hus : us.IsChain Apart)
    (hhead : ∀ u ∈ us.head?, ¬ u.bare) : (ts ++ us).IsChain Apart :=
  hts.append hus fun _ _ u hu _ => hhead u hu

mutual

/-- No two bare tokens meet in a value: after each part of it comes a comma or a bracket. -/
theorem isChain_tokens : ∀ j : Json, j.tokens.IsChain Token.Apart
  | .null | .bool _ | .number _ | .string _ => by simp [tokens]
  | .array [] | .object [] => by simp [tokens, Token.Apart, Token.bare]
  | .array (j :: js) => by
    rw [tokens]
    refine Token.isChain_cons (by decide) ?_
    exact Token.isChain_append (isChain_tokens j) (isChain_moreItems js)
      (not_bare_head?_moreItems js)
  | .object ((key, j) :: ms) => by
    rw [tokens]
    refine Token.isChain_cons (by decide) (Token.isChain_key ?_)
    exact Token.isChain_append (isChain_tokens j) (isChain_moreMembers ms)
      (not_bare_head?_moreMembers ms)

theorem isChain_moreItems : ∀ js : List Json, (moreItems js).IsChain Token.Apart
  | [] => by simp [moreItems]
  | j :: js => by
    rw [moreItems]
    refine Token.isChain_cons (by decide) ?_
    exact Token.isChain_append (isChain_tokens j) (isChain_moreItems js)
      (not_bare_head?_moreItems js)

theorem isChain_moreMembers :
    ∀ ms : List (String × Json), (moreMembers ms).IsChain Token.Apart
  | [] => by simp [moreMembers]
  | (key, j) :: ms => by
    rw [moreMembers]
    refine Token.isChain_cons (by decide) (Token.isChain_key ?_)
    exact Token.isChain_append (isChain_tokens j) (isChain_moreMembers ms)
      (not_bare_head?_moreMembers ms)

end

namespace Reader

/-- An item is read as any value is: it does not begin with a bracket that closes. -/
theorem foldlM_firstItem (j : Json) (stack : List Pending) (rest : List Token) :
    (j.tokens ++ rest).foldlM step (.firstItem stack) =
      (j.tokens ++ rest).foldlM step (.value (.item [] :: stack)) := by
  rcases j with _ | _ | _ | _ | (_ | _) | (_ | ⟨⟨_, _⟩, _⟩) <;> rfl

mutual

/-- The tokens of a value hand it to the innermost container. -/
theorem foldlM_tokens : ∀ (j : Json) (stack : List Pending) (rest : List Token),
    (j.tokens ++ rest).foldlM step (.value stack) = rest.foldlM step (complete j stack)
  | .null, _, _ | .bool _, _, _ | .number _, _, _ | .string _, _, _ => by
    simp [tokens, step, begin?]
  | .array [], _, _ | .object [], _, _ => by simp [tokens, step, begin?]
  | .array (j :: js), stack, rest =>
    calc
      _ = (j.tokens ++ (moreItems js ++ rest)).foldlM step (.firstItem stack) := by
        simp [tokens, step, begin?]
      _ = (moreItems js ++ rest).foldlM step (.afterItem [j] stack) := by
        rw [foldlM_firstItem, foldlM_tokens j, complete]
      _ = _ := foldlM_moreItems js [j] stack rest
  | .object ((key, j) :: ms), stack, rest =>
    calc
      _ = (j.tokens ++ (moreMembers ms ++ rest)).foldlM step
          (.value (.member [] key :: stack)) := by
        simp [tokens, step, begin?]
      _ = (moreMembers ms ++ rest).foldlM step (.afterMember [(key, j)] stack) := by
        rw [foldlM_tokens j, complete]
      _ = _ := foldlM_moreMembers ms [(key, j)] stack rest

theorem foldlM_moreItems : ∀ (js items : List Json) (stack : List Pending) (rest : List Token),
    (moreItems js ++ rest).foldlM step (.afterItem items stack) =
      rest.foldlM step (complete (.array (items.reverse ++ js)) stack)
  | [], items, stack, rest => by simp [moreItems, step]
  | j :: js, items, stack, rest =>
    calc
      _ = (j.tokens ++ (moreItems js ++ rest)).foldlM step (.value (.item items :: stack)) := by
        simp [moreItems, step]
      _ = (moreItems js ++ rest).foldlM step (.afterItem (j :: items) stack) := by
        rw [foldlM_tokens j, complete]
      _ = _ := by rw [foldlM_moreItems js]; simp

theorem foldlM_moreMembers :
    ∀ (ms members : List (String × Json)) (stack : List Pending) (rest : List Token),
    (moreMembers ms ++ rest).foldlM step (.afterMember members stack) =
      rest.foldlM step (complete (.object (members.reverse ++ ms)) stack)
  | [], members, stack, rest => by simp [moreMembers, step]
  | (key, j) :: ms, members, stack, rest =>
    calc
      _ = (j.tokens ++ (moreMembers ms ++ rest)).foldlM step
          (.value (.member members key :: stack)) := by
        simp [moreMembers, step]
      _ = (moreMembers ms ++ rest).foldlM step (.afterMember ((key, j) :: members) stack) := by
        rw [foldlM_tokens j, complete]
      _ = _ := by rw [foldlM_moreMembers ms]; simp

end

end Reader

theorem ofTokens?_tokens (j : Json) : ofTokens? j.tokens = some j := by
  have h := Reader.foldlM_tokens j [] []
  rw [List.append_nil] at h
  rw [ofTokens?, h]
  rfl

/-- Every text of a value is read as that value. -/
theorem parse?_of_spelling {j : Json} {text : String} (h : j.Spelling text) :
    parse? text = some j := by
  rw [parse?, Token.scan?_of_spellings h (isChain_tokens j), Option.bind_some, ofTokens?_tokens]

/-! ## Rendering -/

theorem charSpelling_quotedChar (c : Char) : CharSpelling c (Token.quotedChar c) := by
  unfold Token.quotedChar
  split
  · next h =>
    subst h
    exact .short (by decide)
  split
  · next h =>
    subst h
    exact .short (by decide)
  split
  · next h =>
    have hdigit (k : Nat) (hk : k < 16) : IsHexDigit k (Nat.digitChar k) := ⟨hk, .inl rfl⟩
    have h₁ : c.toNat / 0x1000 = 0 := by omega
    have h₂ : c.toNat / 0x100 % 16 = 0 := by omega
    refine .unit ?_
    rw [UnitSpelling, h₁, h₂]
    exact .cons (hdigit 0 (by omega)) (.cons (hdigit 0 (by omega))
      (.cons (hdigit _ (by omega)) (.cons (hdigit _ (by omega)) .nil)))
  · next hquote hbackslash hcontrol => exact .plain hquote hbackslash (by omega)

theorem Token.spelling_chars {t : Token}
    (h : ∀ literal, t = .number literal → Number.isValid literal.toList) : t.Spelling t.chars := by
  cases t with
  | number literal => exact ⟨h literal rfl, rfl⟩
  | string s =>
    refine ⟨s.toList.map quotedChar, ?_, ?_⟩
    · rw [List.forall₂_map_right_iff]
      exact List.forall₂_same.2 fun c _ => charSpelling_quotedChar c
    · simp [chars, List.flatMap_def]
  | _ => rfl

theorem Token.spellings_flatMap_chars {ts : List Token}
    (h : ∀ literal, .number literal ∈ ts → Number.isValid literal.toList) :
    Spellings ts (ts.flatMap chars) := by
  induction ts with
  | nil => exact .nil (by simp)
  | cons t ts ih =>
    have hspace : ∀ c ∈ ([] : List Char), IsSpace c := by simp
    refine .cons hspace (spelling_chars ?_) (ih ?_)
    · rintro literal rfl
      exact h literal (by simp)
    · exact fun literal hmem => h literal (List.mem_cons_of_mem t hmem)

/-- All numbers in a value are written as JSON writes them. -/
def NumbersValid (j : Json) : Prop :=
  ∀ literal, .number literal ∈ j.tokens → Number.isValid literal.toList

theorem number_mem_moreItems {literal : String} {js : List Json} :
    .number literal ∈ moreItems js ↔ ∃ j ∈ js, .number literal ∈ j.tokens := by
  induction js with
  | nil => simp [moreItems]
  | cons j js ih => simp [moreItems, ih]

theorem number_mem_moreMembers {literal : String} {ms : List (String × Json)} :
    .number literal ∈ moreMembers ms ↔ ∃ m ∈ ms, .number literal ∈ m.2.tokens := by
  induction ms with
  | nil => simp [moreMembers]
  | cons m ms ih => simp [moreMembers, ih]

theorem numbersValid_array {js : List Json} :
    (Json.array js).NumbersValid ↔ ∀ j ∈ js, j.NumbersValid := by
  have hmem (literal : String) : .number literal ∈ (Json.array js).tokens ↔
      ∃ j ∈ js, .number literal ∈ j.tokens := by
    cases js <;> simp [tokens, number_mem_moreItems]
  grind [NumbersValid]

theorem numbersValid_object {ms : List (String × Json)} :
    (Json.object ms).NumbersValid ↔ ∀ m ∈ ms, m.2.NumbersValid := by
  have hmem (literal : String) : .number literal ∈ (Json.object ms).tokens ↔
      ∃ m ∈ ms, .number literal ∈ m.2.tokens := by
    rcases ms with _ | ⟨⟨key, j⟩, ms⟩ <;> simp [tokens, number_mem_moreMembers]
  grind [NumbersValid]

/-- The rendering of a value is one of its texts. -/
theorem spelling_render {j : Json} (h : j.NumbersValid) : j.Spelling j.render := by
  rw [Spelling, render, String.toList_ofList]
  exact Token.spellings_flatMap_chars h

end Ippcode.Json
