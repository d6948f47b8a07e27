import Ippcode.Proofs.Admission

/-! # The order of values

`LT`, `GT` and `EQ` read one comparison in three ways, though two of them are computed from the
strict order of a type and the third from equality of values. The comparison is that of the
integers, `false` before `true`, or the lexicographic one of code points, all of which are total
orders, so the three operators form a strict total order on each type.
-/
namespace Ippcode

namespace Text

/-- The code points of the characters of a string. -/
def codes (s : String) : List Nat := s.toList.map Char.toNat

/-- The lexicographic comparison by code points. -/
def compareCodes (x y : String) : Ordering := List.compareLex compare (codes x) (codes y)

theorem lex_eq_compareLex (cs ds : List Char) :
    cs.lex ds (fun c d => decide (c.toNat < d.toNat)) =
      (List.compareLex compare (cs.map Char.toNat) (ds.map Char.toNat) == .lt) := by
  induction cs generalizing ds with
  | nil => cases ds <;> rfl
  | cons c cs ih =>
    cases ds with
    | nil => rfl
    | cons d ds =>
      simp only [List.map_cons, List.compareLex_cons_cons, List.lex, ih]
      rcases Nat.lt_trichotomy c.toNat d.toNat with hlt | heq | hgt
      · simp [Nat.compare_eq_lt.2 hlt, hlt]
      · obtain rfl := Char.toNat_inj.1 heq
        simp
      · have hne : c ≠ d := by
          rintro rfl
          omega
        simp [Nat.compare_eq_gt.2 hgt, hne]
        omega

theorem precedes_eq (x y : String) : precedes x y = (compareCodes x y == .lt) :=
  lex_eq_compareLex x.toList y.toList

instance : Std.TransCmp compareCodes where
  eq_swap := by
    unfold compareCodes
    exact Std.OrientedCmp.eq_swap
  isLE_trans := by
    unfold compareCodes
    exact Std.TransCmp.isLE_trans

instance : Std.LawfulEqCmp compareCodes where
  compare_self := by
    unfold compareCodes
    exact Std.ReflCmp.compare_self
  eq_of_compare := by
    intro x y h
    have hcodes : codes x = codes y := Std.LawfulEqCmp.eq_of_compare h
    rw [codes, codes, List.map_inj_right fun c d => Char.toNat_inj.1] at hcodes
    exact String.toList_inj.1 hcodes

theorem compareCodes_swap (x y : String) : compareCodes y x = (compareCodes x y).swap :=
  Std.OrientedCmp.eq_swap

theorem not_precedes_eq (x y : String) : (!precedes y x) = (compareCodes x y).isLE := by
  rw [precedes_eq, compareCodes_swap]
  cases compareCodes x y <;> rfl

end Text

namespace Value

/-- The comparison within a type: integers by size, `false` before `true`, strings by their code
points. -/
def compare? : Value → Value → Option Ordering
  | .int x, .int y => some (compare x.toInt y.toInt)
  | .bool x, .bool y => some (compare x y)
  | .str x, .str y => some (Text.compareCodes x y)
  | _, _ => none

variable {a b c : Value} {o : Ordering}

theorem exists_compare? {t : ValueType} (ht : t ∈ [ValueType.int, .bool, .string])
    (ha : a.type? = some t) (hb : b.type? = some t) : ∃ o, a.compare? b = some o := by
  have htypes : [a.type?, b.type?] = [some t, some t] := by rw [ha, hb]
  obtain ⟨x, y, rfl, rfl⟩ | ⟨x, y, rfl, rfl⟩ | ⟨x, y, rfl, rfl⟩ :=
    cases_of_ordered ⟨t, ht, htypes⟩ <;> exact ⟨_, rfl⟩

theorem types_of_compare? (h : a.compare? b = some o) :
    ∃ t ∈ [ValueType.int, .bool, .string], [a.type?, b.type?] = [some t, some t] := by
  unfold compare? at h
  split at h
  · exact ⟨.int, by simp, rfl⟩
  · exact ⟨.bool, by simp, rfl⟩
  · exact ⟨.string, by simp, rfl⟩
  · cases h

theorem compare?_swap (a b : Value) : b.compare? a = (a.compare? b).map Ordering.swap := by
  cases a with
  | int x =>
    cases b with
    | int y => exact congrArg some Std.OrientedCmp.eq_swap
    | _ => rfl
  | bool x =>
    cases b with
    | bool y => exact congrArg some Std.OrientedCmp.eq_swap
    | _ => rfl
  | str x =>
    cases b with
    | str y => exact congrArg some Std.OrientedCmp.eq_swap
    | _ => rfl
  | nil | uninit => cases b <;> rfl

theorem compare?_trans (hab : a.compare? b = some .lt) (hbc : b.compare? c = some .lt) :
    a.compare? c = some .lt := by
  unfold compare? at hab
  split at hab
  · cases c with
    | int z =>
      exact congrArg some (Std.TransCmp.lt_trans (Option.some.inj hab) (Option.some.inj hbc))
    | _ => cases hbc
  · cases c with
    | bool z =>
      exact congrArg some (Std.TransCmp.lt_trans (Option.some.inj hab) (Option.some.inj hbc))
    | _ => cases hbc
  · cases c with
    | str z =>
      exact congrArg some (Std.TransCmp.lt_trans (Option.some.inj hab) (Option.some.inj hbc))
    | _ => cases hbc
  · cases hab

theorem eq_iff_of_compare? (h : a.compare? b = some o) : a = b ↔ o = .eq := by
  unfold compare? at h
  split at h
  · cases h
    rw [Std.LawfulEqCmp.compare_eq_iff_eq, Int64.toInt_inj, Value.int.injEq]
  · cases h
    rw [Std.LawfulEqCmp.compare_eq_iff_eq, Value.bool.injEq]
  · cases h
    rw [Std.LawfulEqCmp.compare_eq_iff_eq, Value.str.injEq]
  · cases h

end Value

namespace Operator

open BinaryOp (lt gt eq)

variable {op : Opcode} {a b : Value} {o : Ordering}

theorem decide_lt_eq_compare (x y : Int64) :
    decide (x < y) = (compare x.toInt y.toInt == .lt) := by
  rw [Bool.eq_iff_iff, decide_eq_true_iff, beq_iff_eq, Std.compare_eq_lt, Int64.lt_iff_toInt_lt]

theorem less?_eq (a b : Value) : less? a b = (a.compare? b).map (· == .lt) := by
  cases a with
  | int x =>
    cases b with
    | int y => exact congrArg some (decide_lt_eq_compare x y)
    | _ => rfl
  | bool x =>
    cases b with
    | bool y => cases x <;> cases y <;> rfl
    | _ => rfl
  | str x =>
    cases b with
    | str y => exact congrArg some (Text.precedes_eq x y)
    | _ => rfl
  | nil | uninit => cases b <;> rfl

theorem relational_of_test {test : Value → Value → Option Bool} {r : Bool}
    (h : a.compare? b = some o) (ht : test a b = some r) :
    relational op test a b = .ok (.bool r) := by
  have hassigned : bothAssigned op a b = .ok () ∧ (a.isNil || b.isNil) = false := by
    obtain ⟨x, y, rfl, rfl⟩ | ⟨x, y, rfl, rfl⟩ | ⟨x, y, rfl, rfl⟩ :=
      Value.cases_of_ordered (Value.types_of_compare? h) <;> exact ⟨rfl, rfl⟩
  refine Except.bind_eq_ok.2 ⟨(), hassigned.1, ?_⟩
  rw [hassigned.2, ht]
  rfl

theorem lt_of_compare? (h : a.compare? b = some o) : lt.apply a b = .ok (.bool (o == .lt)) := by
  refine relational_of_test h ?_
  rw [less?_eq, h]
  rfl

theorem lt_eq_true_iff (h : a.compare? b = some o) :
    lt.apply a b = .ok (.bool true) ↔ o = .lt := by
  simp [lt_of_compare? h]

theorem gt_of_compare? (h : a.compare? b = some o) : gt.apply a b = .ok (.bool (o == .gt)) := by
  change relational .gt (fun a b => less? b a) a b = _
  refine relational_of_test h ?_
  rw [less?_eq, Value.compare?_swap, h]
  cases o <;> rfl

theorem eq_of_compare? (h : a.compare? b = some o) : eq.apply a b = .ok (.bool (o == .eq)) := by
  obtain ⟨t, _, htypes⟩ := Value.types_of_compare? h
  have hr : decide (a = b) = (o == .eq) := by
    rw [decide_eq_decide.2 (Value.eq_iff_of_compare? h)]
    rfl
  exact Except.map_eq_ok.2 ⟨_, equals_eq_ok_iff.2 ⟨⟨t, t, htypes, .inr (.inr rfl)⟩, hr.symm⟩, rfl⟩

/-- On each of the types that have an order, `LT`, `EQ` and `GT` say which of the three outcomes the
comparison of two values has, so that exactly one of them holds. `GT` is the converse of `LT`, which
is irreflexive and transitive; `EQ` is symmetric, and equal values are interchangeable. -/
theorem comparisons_form_order {t : ValueType} {a b c : Value}
    (ht : t ∈ [ValueType.int, .bool, .string]) (ha : a.type? = some t) (hb : b.type? = some t)
    (hc : c.type? = some t) :
    (∃ o, a.compare? b = some o ∧ lt.apply a b = .ok (.bool (o == .lt)) ∧
        eq.apply a b = .ok (.bool (o == .eq)) ∧ gt.apply a b = .ok (.bool (o == .gt)) ∧
        [o == .lt, o == .eq, o == .gt].count true = 1) ∧
      gt.apply a b = lt.apply b a ∧
      lt.apply a a = .ok (.bool false) ∧
      (lt.apply a b = .ok (.bool true) → lt.apply b c = .ok (.bool true) →
        lt.apply a c = .ok (.bool true)) ∧
      eq.apply a b = eq.apply b a ∧
      (eq.apply a b = .ok (.bool true) →
        lt.apply a c = lt.apply b c ∧ lt.apply c a = lt.apply c b ∧
        gt.apply a c = gt.apply b c ∧ gt.apply c a = gt.apply c b) := by
  obtain ⟨o, hab⟩ := Value.exists_compare? ht ha hb
  obtain ⟨o', hbc⟩ := Value.exists_compare? ht hb hc
  have hba : b.compare? a = some o.swap := by
    rw [Value.compare?_swap, hab]
    rfl
  refine ⟨⟨o, hab, lt_of_compare? hab, eq_of_compare? hab, gt_of_compare? hab, ?_⟩, ?_, ?_, ?_, ?_,
    ?_⟩
  · cases o <;> rfl
  · rw [gt_of_compare? hab, lt_of_compare? hba]
    cases o <;> rfl
  · obtain ⟨o'', haa⟩ := Value.exists_compare? ht ha ha
    obtain rfl := (Value.eq_iff_of_compare? haa).1 rfl
    exact lt_of_compare? haa
  · intro hlt hlt'
    rw [lt_eq_true_iff hab] at hlt
    rw [lt_eq_true_iff hbc] at hlt'
    subst hlt hlt'
    exact lt_of_compare? (Value.compare?_trans hab hbc)
  · rw [eq_of_compare? hab, eq_of_compare? hba]
    cases o <;> rfl
  · intro heq
    rw [eq_of_compare? hab] at heq
    obtain rfl : a = b := (Value.eq_iff_of_compare? hab).2 (by simpa using heq)
    exact ⟨rfl, rfl, rfl, rfl⟩

/-- Three strings in ascending order, the last of a character beyond the basic plane. -/
theorem comparisons_form_order_strings :
    lt.apply (.str "a") (.str "a\uffff") = .ok (.bool true) ∧
      lt.apply (.str "a\uffff") (.str "a😀") = .ok (.bool true) ∧
      lt.apply (.str "a") (.str "a😀") = .ok (.bool true) := by
  have hfirst : lt.apply (.str "a") (.str "a\uffff") = .ok (.bool true) := by decide +kernel
  have hsecond : lt.apply (.str "a\uffff") (.str "a😀") = .ok (.bool true) := by decide +kernel
  have ha : (Value.str "a").type? = some .string := rfl
  have hb : (Value.str "a\uffff").type? = some .string := rfl
  have hc : (Value.str "a😀").type? = some .string := rfl
  obtain ⟨_, _, _, htrans, _⟩ := comparisons_form_order (by decide) ha hb hc
  exact ⟨hfirst, hsecond, htrans hfirst hsecond⟩

end Operator

/-! ## Listings -/

namespace Frame

open Text (compareCodes)

theorem sorted_eq (f : Frame) :
    f.sorted = f.entries.mergeSort fun e e' => (compareCodes e.1 e'.1).isLE := by
  simp only [sorted, Text.not_precedes_eq]

theorem sorted_perm (f : Frame) : f.sorted.Perm f.entries := List.mergeSort_perm _ _

/-- A listing is in ascending order of names. -/
theorem pairwise_sorted (f : Frame) :
    f.sorted.Pairwise fun e e' => compareCodes e.1 e'.1 = .lt := by
  have hle : f.sorted.Pairwise fun e e' => (compareCodes e.1 e'.1).isLE := by
    rw [sorted_eq]
    apply List.pairwise_mergeSort
    · intro a b c
      exact Std.TransCmp.isLE_trans
    · intro a b
      rw [Text.compareCodes_swap a.1 b.1]
      cases compareCodes a.1 b.1 <;> rfl
  -- names are declared once, so no two neighbours compare equal
  have hne : f.sorted.Pairwise fun e e' => e.1 ≠ e'.1 :=
    List.pairwise_map.1 ((f.sorted_perm.map Prod.fst).nodup_iff.2 f.nodup)
  refine (hle.and hne).imp ?_
  rintro e e' ⟨hle, hne⟩
  cases h : compareCodes e.1 e'.1 with
  | lt => rfl
  | eq => exact absurd (Std.LawfulEqCmp.eq_of_compare h) hne
  | gt => simp [h] at hle

/-- The lines of a dump on the variables of a frame. -/
def listing (f : Frame) : String :=
  String.join (f.sorted.map fun e => s!"\t{e.fst} : {e.snd.display}\n")

end Frame

/-- A dump ends with the global variables, on which nothing before them depends. -/
theorem Machine.dump_eq {ρ σ : Type} (m : Machine ρ σ) (order : Int64) :
    m.dump order = { m with memory.global := .empty }.dump order ++ m.memory.global.listing := by
  have hempty : Frame.empty.sorted = [] := List.mergeSort_nil
  unfold dump
  simp only [hempty, List.map_nil]
  rw [String.join_nil, String.append_empty]
  rfl

end Ippcode
