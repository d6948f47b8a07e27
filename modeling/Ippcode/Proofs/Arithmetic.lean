import Mathlib.Data.Int.ModEq
import Ippcode.Proofs.Dispatch
import Ippcode.Proofs.Result

/-! # Integers

Integers have 64 bits. A sum, a difference or a product is the exact one, less the multiple of 2^64
that brings it into range. A quotient is cut off toward zero, so that what remains has the sign of
the dividend, and is in range but for the least integer divided by -1, which wraps around too.
-/
namespace Ippcode.Operator

/-- The integer stands for an exact result: it is the only one in range that differs from the result
by a multiple of 2^64. -/
def Wraps (r : Int64) (n : Int) : Prop :=
  ∀ k : Int, k = r.toInt ↔ (-2 ^ 63 ≤ k ∧ k ≤ 2 ^ 63 - 1) ∧ k ≡ n [ZMOD 2 ^ 64]

/-- A quotient that is cut off toward zero. What remains is less than the divisor, and is zero or
has the sign of the dividend. -/
def Truncates (x y q : Int) : Prop :=
  ∃ r, x = q * y + r ∧ r.natAbs < y.natAbs ∧ (r = 0 ∨ 0 < r ∧ 0 < x ∨ r < 0 ∧ x < 0)

theorem wraps_of_toInt_eq {r : Int64} {n : Int} (h : r.toInt = n.bmod (2 ^ 64)) : Wraps r n := by
  intro k
  constructor
  · rintro rfl
    refine ⟨⟨r.le_toInt, Int.le_sub_one_of_lt r.toInt_lt⟩, ?_⟩
    rw [h]
    exact Int.bmod_emod
  · rintro ⟨⟨hlow, hhigh⟩, hmod⟩
    have hmod : k % (2 ^ 64 : Nat) = n % (2 ^ 64 : Nat) := hmod
    calc
      k = k.bmod (2 ^ 64) := (Int.bmod_eq_of_le (by omega) (by omega)).symm
      _ = (k % (2 ^ 64 : Nat)).bmod (2 ^ 64) := (Int.emod_bmod k _).symm
      _ = (n % (2 ^ 64 : Nat)).bmod (2 ^ 64) := by rw [hmod]
      _ = n.bmod (2 ^ 64) := Int.emod_bmod n _
      _ = r.toInt := h.symm

theorem Truncates.neg {x y q : Int} (h : Truncates x y q) : Truncates (-x) y (-q) := by
  obtain ⟨r, rfl, hlt, hsign⟩ := h
  refine ⟨-r, ?_, by omega, by omega⟩
  rw [Int.neg_add, Int.neg_mul]

theorem truncates_iff_of_nonneg {x y q : Int} (hx : 0 ≤ x) (hy : y ≠ 0) :
    Truncates x y q ↔ q = x.tdiv y := by
  constructor
  · rintro ⟨r, hsum, hlt, hsign⟩
    have hr : 0 ≤ r := by omega
    have hsum : r + y * q = x := by rw [hsum, Int.mul_comm, Int.add_comm]
    exact ((Int.tdiv_tmod_unique hx hy).2 ⟨hsum, hr, by omega⟩).1.symm
  · rintro rfl
    obtain ⟨hsum, hr, hlt⟩ := (Int.tdiv_tmod_unique hx hy).1 ⟨rfl, rfl⟩
    refine ⟨x.tmod y, ?_, by omega, ?_⟩
    · rw [Int.mul_comm, Int.add_comm, hsum]
    · rcases Int.lt_or_eq_of_le hx with hpos | rfl
      · omega
      · exact .inl (Int.zero_tmod y)

/-- There is one such quotient. -/
theorem truncates_iff {x y q : Int} (hy : y ≠ 0) : Truncates x y q ↔ q = x.tdiv y := by
  rcases Int.le_total 0 x with hx | hx
  · exact truncates_iff_of_nonneg hx hy
  · have hneg : Truncates x y q ↔ Truncates (-x) y (-q) := by
      refine ⟨Truncates.neg, ?_⟩
      intro h
      simpa only [Int.neg_neg] using h.neg
    rw [hneg, truncates_iff_of_nonneg (by omega) hy, Int.neg_tdiv, Int.neg_inj]

theorem toInt_quotient {x y : Int64} (h : ¬ (x = Int64.minValue ∧ y = -1)) :
    (x / y).toInt = x.toInt.tdiv y.toInt := by
  by_cases hx : x = Int64.minValue
  · exact Int64.toInt_div_of_ne_right x y fun hy => h ⟨hx, hy⟩
  · exact Int64.toInt_div_of_ne_left x y hx

theorem idiv_of_ne_zero (x : Int64) {y : Int64} (hy : y ≠ 0) :
    BinaryOp.idiv.apply (.int x) (.int y) = .ok (.int (x / y)) :=
  Except.map_eq_ok.2 ⟨x / y, if_neg hy, rfl⟩

/-- Arithmetic is exact modulo 2^64, and subtraction undoes addition. A quotient is cut off toward
zero; to divide by zero is a fault of values; and the one quotient that is out of range is exact
modulo 2^64 too. Whatever the operands are, none of the four operators crashes. -/
theorem arithmetic_exact (x y : Int64) :
    (∃ r, BinaryOp.add.apply (.int x) (.int y) = .ok (.int r) ∧ Wraps r (x.toInt + y.toInt) ∧
      BinaryOp.sub.apply (.int r) (.int y) = .ok (.int x)) ∧
    (∃ r, BinaryOp.sub.apply (.int x) (.int y) = .ok (.int r) ∧ Wraps r (x.toInt - y.toInt)) ∧
    (∃ r, BinaryOp.mul.apply (.int x) (.int y) = .ok (.int r) ∧ Wraps r (x.toInt * y.toInt)) ∧
    (∃ f, BinaryOp.idiv.apply (.int x) (.int 0) = .error f ∧ f.kind = .operandValue) ∧
    (y ≠ 0 → ¬ (x = Int64.minValue ∧ y = -1) →
      ∃ q, BinaryOp.idiv.apply (.int x) (.int y) = .ok (.int q) ∧
        ∀ k, Truncates x.toInt y.toInt k ↔ k = q.toInt) ∧
    (BinaryOp.idiv.apply (.int Int64.minValue) (.int (-1)) = .ok (.int Int64.minValue) ∧
      Int64.minValue.toInt = 2 ^ 63 * (-1) ∧ Wraps Int64.minValue (2 ^ 63)) ∧
    ∀ op ∈ [BinaryOp.add, .sub, .mul, .idiv], ∀ c,
      Family.arithmetic op.opcode (.int x) (.int y) ≠ .error (.crash c) := by
  refine ⟨⟨x + y, rfl, wraps_of_toInt_eq (x.toInt_add y), ?_⟩,
    ⟨x - y, rfl, wraps_of_toInt_eq (x.toInt_sub y)⟩,
    ⟨x * y, rfl, wraps_of_toInt_eq (x.toInt_mul y)⟩, ⟨.divisionByZero, rfl, rfl⟩, ?_,
    ⟨idiv_of_ne_zero _ (by decide), by decide, wraps_of_toInt_eq (by decide)⟩, ?_⟩
  · exact congrArg (fun n => Except.ok (Value.int n)) (Int64.add_sub_cancel x y)
  · intro hy hmin
    have hy' : y.toInt ≠ 0 := fun h => hy (Int64.toInt_inj.1 h)
    refine ⟨x / y, idiv_of_ne_zero x hy, ?_⟩
    intro k
    rw [truncates_iff hy', toInt_quotient hmin]
  · intro op hop c h
    rw [Family.arithmetic_opcode _ _ hop] at h
    obtain ⟨f, _, hf⟩ := Except.mapError_eq_error.1 h
    cases hf

/-- A sum that is too great, and a negative dividend. -/
theorem arithmetic_exact_extremes :
    (∃ r, BinaryOp.add.apply (.int Int64.maxValue) (.int 2) = .ok (.int r) ∧
      Wraps r (2 ^ 63 + 1)) ∧
    ∃ q, BinaryOp.idiv.apply (.int (-7)) (.int 2) = .ok (.int q) ∧
      ∀ k, Truncates (-7) 2 k ↔ k = q.toInt := by
  obtain ⟨⟨r, hr, hwraps, _⟩, _⟩ := arithmetic_exact Int64.maxValue 2
  obtain ⟨_, _, _, _, hquotient, _⟩ := arithmetic_exact (-7) 2
  exact ⟨⟨r, hr, hwraps⟩, hquotient (by decide) (by decide)⟩

end Ippcode.Operator
