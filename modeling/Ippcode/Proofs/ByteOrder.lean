import Ippcode.Proofs.Order

/-! # Comparing bytes

Strings in UTF-8 can be compared byte by byte, without being decoded: the order is that of their
code points. A character is a leading byte and up to three continuation bytes of six bits each. The
leading byte grows with the number of bytes, and among characters of one length the bytes are the
digits of the code point, the most significant first. So the bytes of two strings first differ
within the first character in which they differ, and in the same direction. (This fails for units
of 16 bits, where the characters beyond the basic plane come before some of those in it.)
-/
namespace Ippcode

namespace Text

/-- The bytes of a string in UTF-8. -/
def bytes (s : String) : List UInt8 := s.toUTF8.data.toList

/-- The lexicographic comparison by bytes. -/
def compareBytes (x y : String) : Ordering := List.compareLex compare (bytes x) (bytes y)

theorem bytes_eq_flatMap (s : String) : bytes s = s.toList.flatMap String.utf8EncodeChar := by
  rw [bytes, String.toUTF8_eq_toByteArray, ← String.utf8Encode_toList, List.utf8Encode,
    List.toList_data_toByteArray]

/-! ## Digits -/

/-- What so many continuation bytes leave of a number for the leading byte. -/
def top : Nat → Nat → Nat
  | 0, n => n
  | k + 1, n => top k (n / 64)

/-- A number in a leading byte and so many continuation bytes. -/
def units (lead : Nat) : Nat → Nat → List UInt8
  | 0, n => [UInt8.ofNat (lead + n)]
  | k + 1, n => units lead k (n / 64) ++ [UInt8.ofNat (0x80 + n % 64)]

theorem compare_ofNat {m n : Nat} (h : m < n) (hn : n < 256) :
    compare (UInt8.ofNat m) (UInt8.ofNat n) = .lt := by
  rw [Std.compare_eq_lt, UInt8.lt_iff_toNat_lt, UInt8.toNat_ofNat', UInt8.toNat_ofNat']
  omega

theorem compareLex_append_left (bs cs ds : List UInt8) :
    List.compareLex compare (bs ++ cs) (bs ++ ds) = List.compareLex compare cs ds := by
  induction bs with
  | nil => rfl
  | cons b bs ih =>
    have hself : compare b b = .eq := Std.ReflCmp.compare_self
    rw [List.cons_append, List.cons_append, List.compareLex_cons_cons, ih, hself]
    rfl

theorem units_eq_cons (lead k n : Nat) :
    ∃ rest, units lead k n = UInt8.ofNat (lead + top k n) :: rest := by
  induction k generalizing n with
  | zero => exact ⟨[], rfl⟩
  | succ k ih =>
    obtain ⟨rest, h⟩ := ih (n / 64)
    refine ⟨rest ++ [UInt8.ofNat (0x80 + n % 64)], ?_⟩
    rw [units, h]
    rfl

/-- Numbers with the same number of bytes are ordered as their bytes are. -/
theorem compareLex_units {lead k m n : Nat} (h : m < n) (hn : lead + top k n < 256)
    (cs ds : List UInt8) :
    List.compareLex compare (units lead k m ++ cs) (units lead k n ++ ds) = .lt := by
  induction k generalizing m n cs ds with
  | zero =>
    rw [units, units, List.singleton_append, List.singleton_append, List.compareLex_cons_cons,
      compare_ofNat (Nat.add_lt_add_left h lead) hn]
    rfl
  | succ k ih =>
    rw [units, units, List.append_assoc, List.append_assoc]
    rcases Nat.lt_or_eq_of_le (Nat.div_le_div_right (Nat.le_of_lt h)) with hlt | heq
    · exact ih hlt hn _ _
    · -- all bytes before the last one agree, so the remainders must differ
      rw [heq, compareLex_append_left, List.singleton_append, List.singleton_append,
        List.compareLex_cons_cons, compare_ofNat (by omega) (by omega)]
      rfl

/-! ## Characters -/

/-- The code points that are written with so many continuation bytes, and what their leading byte
begins at. -/
inductive Width : Nat → Nat → Nat → Prop
  | one {n : Nat} (h : n < 0x80) : Width 0 0 n
  | two {n : Nat} (h : 0x80 ≤ n) (h' : n < 0x800) : Width 1 0xc0 n
  | three {n : Nat} (h : 0x800 ≤ n) (h' : n < 0x10000) : Width 2 0xe0 n
  | four {n : Nat} (h : 0x10000 ≤ n) (h' : n < 0x110000) : Width 3 0xf0 n

theorem exists_width (c : Char) :
    ∃ k lead, Width k lead c.toNat ∧ String.utf8EncodeChar c = units lead k c.toNat := by
  have hvalid : c.val.toNat < 0x110000 := by
    rcases c.valid with h | ⟨_, h⟩
    · omega
    · exact h
  unfold Char.toNat String.utf8EncodeChar
  generalize c.val.toNat = n at hvalid
  -- the encoding masks the leading byte, to no effect on a code point of its width
  dsimp only
  split
  · refine ⟨0, 0, .one (by omega), ?_⟩
    rw [units, Nat.zero_add]
  split
  · have hlead : n / 64 % 32 = n / 64 := Nat.mod_eq_of_lt (by omega)
    refine ⟨1, 0xc0, .two (by omega) (by omega), ?_⟩
    simp [units, hlead, Nat.add_comm]
  split
  · have hlead : n / 4096 % 16 = n / 4096 := Nat.mod_eq_of_lt (by omega)
    refine ⟨2, 0xe0, .three (by omega) (by omega), ?_⟩
    simp [units, hlead, Nat.add_comm, Nat.div_div_eq_div_mul]
  · have hlead : n / 262144 % 8 = n / 262144 := Nat.mod_eq_of_lt (by omega)
    refine ⟨3, 0xf0, .four (by omega) hvalid, ?_⟩
    simp [units, hlead, Nat.add_comm, Nat.div_div_eq_div_mul]

theorem Width.lt {k lead n : Nat} (h : Width k lead n) : lead + top k n < 256 := by
  cases h <;> simp only [top] <;> omega

/-- Of two code points the greater one has as many bytes, or a greater leading byte. -/
theorem Width.cases_of_lt {k l lead lead' m n : Nat} (hm : Width k lead m) (hn : Width l lead' n)
    (h : m < n) : (k = l ∧ lead = lead') ∨ lead + top k m < lead' + top l n := by
  cases hm <;> cases hn <;> simp [top] <;> omega

theorem compareLex_encode {c d : Char} (h : c.toNat < d.toNat) (bs cs : List UInt8) :
    List.compareLex compare (String.utf8EncodeChar c ++ bs) (String.utf8EncodeChar d ++ cs) =
      .lt := by
  obtain ⟨k, lead, hc, hcunits⟩ := exists_width c
  obtain ⟨l, lead', hd, hdunits⟩ := exists_width d
  rw [hcunits, hdunits]
  rcases hc.cases_of_lt hd h with ⟨rfl, rfl⟩ | hlead
  · exact compareLex_units h hd.lt bs cs
  · obtain ⟨rest, hrest⟩ := units_eq_cons lead k c.toNat
    obtain ⟨rest', hrest'⟩ := units_eq_cons lead' l d.toNat
    rw [hrest, hrest', List.cons_append, List.cons_append, List.compareLex_cons_cons,
      compare_ofNat hlead hd.lt]
    rfl

/-! ## Strings -/

theorem compareLex_flatMap (cs ds : List Char) :
    List.compareLex compare (cs.flatMap String.utf8EncodeChar) (ds.flatMap String.utf8EncodeChar) =
      List.compareLex compare (cs.map Char.toNat) (ds.map Char.toNat) := by
  induction cs generalizing ds with
  | nil =>
    cases ds with
    | nil => rfl
    | cons d ds =>
      obtain ⟨b, bs, hd⟩ := List.exists_cons_of_ne_nil (String.utf8EncodeChar_ne_nil (c := d))
      rw [List.flatMap_cons, hd]
      rfl
  | cons c cs ih =>
    cases ds with
    | nil =>
      obtain ⟨b, bs, hc⟩ := List.exists_cons_of_ne_nil (String.utf8EncodeChar_ne_nil (c := c))
      rw [List.flatMap_cons, hc]
      rfl
    | cons d ds =>
      rw [List.flatMap_cons, List.flatMap_cons, List.map_cons, List.map_cons,
        List.compareLex_cons_cons]
      rcases Nat.lt_trichotomy c.toNat d.toNat with hlt | heq | hgt
      · rw [compareLex_encode hlt, Nat.compare_eq_lt.2 hlt]
        rfl
      · obtain rfl := Char.toNat_inj.1 heq
        rw [compareLex_append_left, ih, Nat.compare_eq_eq.2 rfl]
        rfl
      · rw [Std.OrientedCmp.gt_of_lt (compareLex_encode hgt _ _), Nat.compare_eq_gt.2 hgt]
        rfl

/-- Bytes order strings as code points do. -/
theorem compareBytes_eq (x y : String) : compareBytes x y = compareCodes x y := by
  rw [compareBytes, bytes_eq_flatMap, bytes_eq_flatMap]
  exact compareLex_flatMap x.toList y.toList

end Text

open Text (compareBytes compareCodes)

/-- Comparing strings by bytes is comparing them by code points, and `LT`, `GT` and the listing of
a frame can be computed by either: the listing has the variables in ascending order of code points,
and so has what `BREAK` writes after its header. -/
theorem bytes_order_as_code_points {ρ σ : Type} [Reader ρ] [Writer σ] (p : Program)
    (m : Machine ρ σ) (order : Int64) (f : Frame) (x y : String) :
    compareBytes x y = compareCodes x y ∧
      BinaryOp.lt.apply (.str x) (.str y) = .ok (.bool (compareBytes x y == .lt)) ∧
      BinaryOp.gt.apply (.str x) (.str y) = .ok (.bool (compareBytes x y == .gt)) ∧
      f.sorted = f.entries.mergeSort (fun e e' => (compareBytes e.1 e'.1).isLE) ∧
      f.sorted.Perm f.entries ∧
      f.sorted.Pairwise (fun e e' => compareCodes e.1 e'.1 = .lt) ∧
      m.exec p ⟨order, .brk⟩ = m.emit .err
        (.str ({ m with memory.global := .empty }.dump order ++ m.memory.global.listing)) := by
  have hxy : (Value.str x).compare? (.str y) = some (compareBytes x y) :=
    congrArg some (Text.compareBytes_eq x y).symm
  refine ⟨Text.compareBytes_eq x y, Operator.lt_of_compare? hxy, Operator.gt_of_compare? hxy, ?_,
    f.sorted_perm, f.pairwise_sorted, ?_⟩
  · simp only [Text.compareBytes_eq, Frame.sorted_eq]
  · rw [← m.dump_eq order]
    rfl

end Ippcode
