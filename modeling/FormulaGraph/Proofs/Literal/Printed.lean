import FormulaGraph.Proofs.Literal.Numeral

/-!
Written literals are numerals: the binary digits of a bit-vector, as many as its width says, and the
decimal text of an integer spell the numbers that they were written for, so reading them gives the
literals back.
-/

namespace FormulaGraph

namespace Numeral

variable {d n w : Nat}

theorem digit?_digitChar (small : d < 10) : digit? 10 d.digitChar = some d := by
  interval_cases d <;> rfl

theorem exists_digits_toDigits (n : Nat) :
    ∃ ds, Digits 10 (Nat.toDigits 10 n) ds ∧ n = Nat.ofDigits 10 ds.reverse := by
  induction n using Nat.strongRecOn with
  | ind n ih =>
    by_cases small : n < 10
    · refine ⟨[n], ?_, by simp⟩
      rw [Nat.toDigits_of_lt_base small]
      exact .cons (digit?_digitChar small) .nil
    · obtain ⟨ds, digits, value⟩ := ih (n / 10) (by omega)
      refine ⟨ds ++ [n % 10], ?_, ?_⟩
      · rw [Nat.toDigits_of_base_le (by decide) (by omega)]
        exact List.rel_append digits (.cons (digit?_digitChar (Nat.mod_lt n (by decide))) .nil)
      · rw [List.reverse_append, List.reverse_singleton, List.singleton_append,
          Nat.ofDigits_cons, ← value]
        exact (Nat.mod_add_div n 10).symm

theorem spells_toString_nat (n : Nat) : Spells 10 .bare (toString n).toList n := by
  obtain ⟨ds, digits, value⟩ := exists_digits_toDigits n
  rw [Nat.toString_eq_ofList_toDigits, String.toList_ofList]
  exact ⟨_, ds, rfl, Nat.toDigits_ne_nil, digits, by rw [← value, Front.sign, one_mul]⟩

theorem exists_spells_toString (n : Int) :
    ∃ front, front ≠ .minusPlus ∧ Spells 10 front (toString n).toList n := by
  cases n with
  | ofNat n => exact ⟨.bare, by decide, spells_toString_nat n⟩
  | negSucc n =>
    refine ⟨.minus, by decide, ?_⟩
    have text : (toString (Int.negSucc n)).toList = '-' :: (toString (n + 1)).toList := by
      show ("-" ++ toString (n + 1)).toList = _
      rw [String.toList_append]
      rfl
    rw [text, spells_minus_iff]
    exact spells_toString_nat (n + 1)

theorem digit?_bit (b : Bool) : digit? 2 (if b then '1' else '0') = some b.toNat := by
  cases b <;> rfl

/-- The lowest bits of a number are the digits of what it is modulo the power of two. -/
theorem ofDigits_testBit (n w : Nat) :
    Nat.ofDigits 2 ((List.range w).map fun i => (n.testBit i).toNat) = n % 2 ^ w := by
  induction w with
  | zero => simp [Nat.mod_one]
  | succ w ih =>
    rw [List.range_succ, List.map_append, List.map_singleton, Nat.ofDigits_append, ih,
      Nat.ofDigits_singleton,
      List.length_map, List.length_range, Nat.mod_pow_succ, Nat.toNat_testBit]

end Numeral

namespace Literal

open Numeral

/-- The characters that `binaryText` writes of a number that fits. -/
def binaryDigits (w n : Nat) : List Char :=
  (List.range w).reverse.map fun i => if n.testBit i then '1' else '0'

variable {w n : Nat}

theorem binaryText_eq (positive : 0 < w) (fits : n < 2 ^ w) :
    binaryText w n = String.ofList (binaryDigits w n) := by
  have enough : n.log2 + 1 ≤ w := by
    by_cases zero : n = 0
    · rw [zero, Nat.log2_zero]
      exact positive
    · exact (Nat.log2_lt zero).mpr fits
  rw [binaryText, Nat.max_eq_left enough, binaryDigits]

theorem length_binaryDigits : (binaryDigits w n).length = w := by
  rw [binaryDigits, List.length_map, List.length_reverse, List.length_range]

theorem bit_of_mem_binaryDigits {c : Char} (member : c ∈ binaryDigits w n) : c = '0' ∨ c = '1' := by
  obtain ⟨i, -, rfl⟩ := List.mem_map.mp member
  split
  · exact .inr rfl
  · exact .inl rfl

theorem spells_binaryDigits (positive : 0 < w) (fits : n < 2 ^ w) :
    Spells 2 .bare (binaryDigits w n) n := by
  refine ⟨binaryDigits w n, (List.range w).reverse.map fun i =>
    (n.testBit i).toNat, rfl, ?_, ?_, ?_⟩
  · rw [← List.length_pos_iff, length_binaryDigits]
    exact positive
  · rw [Digits, binaryDigits, List.forall₂_map_left_iff,
      List.forall₂_map_right_iff, List.forall₂_same]
    exact fun i _ => digit?_bit (n.testBit i)
  · rw [← List.map_reverse, List.reverse_reverse, ofDigits_testBit, Nat.mod_eq_of_lt fits,
      Front.sign, one_mul]

section Reading

variable {w : UInt64}

theorem ofBits_toNat (w : UInt64) (x : Word) :
    ofBits w (BitVec.ofInt 128 (x &&& mask w).toNat) = ofBits w x := by
  rw [BitVec.ofInt_natCast, BitVec.ofNat_toNat, BitVec.setWidth_eq, ofBits,
    ofBits, BitVec.and_assoc, BitVec.and_self]

theorem text_ofBits (positive : 1 ≤ w) (x : Word) :
    (ofBits w x).text = "#b" ++ String.ofList (binaryDigits w.toNat (x &&& mask w).toNat) ∧
      parse (String.ofList (binaryDigits w.toNat (x &&& mask w).toNat)) (.bitVec w) 2 =
        .ok (ofBits w x) := by
  have pos : 0 < w.toNat := UInt64.le_iff_toNat_le.mp positive
  have fits : (x &&& mask w).toNat < 2 ^ w.toNat := trimmed_ofBits w x
  constructor
  · rw [ofBits, text, binaryText_eq pos fits]
  · refine parse_bitVec_eq_ok_iff.mpr ⟨by decide, .bare, _, ?_, ?_, (ofBits_toNat w x).symm⟩
    · rw [String.toList_ofList]
      exact spells_binaryDigits pos fits
    · exact (x &&& mask w).isLt

theorem parse_toString_int (n : Int128) : parse (toString n.val) .int 10 = .ok (.int n) := by
  obtain ⟨front, single, spells⟩ := exists_spells_toString n.val
  exact parse_int_eq_ok_iff.mpr ⟨by decide, front, n, single, spells, rfl⟩

theorem text_int {n : Int128} (nonneg : 0 ≤ n.val) : (int n).text = toString n.val := by
  rw [text, signedText, if_neg (Int.not_lt.mpr nonneg)]

theorem parse_toString_bitVec {n : Int} (fits : n.natAbs < 2 ^ 128) :
    parse (toString n) (.bitVec w) 10 = .ok (ofBits w (BitVec.ofInt 128 n)) := by
  obtain ⟨front, -, spells⟩ := exists_spells_toString n
  exact parse_bitVec_eq_ok_iff.mpr ⟨by decide, front, n, spells, fits, rfl⟩

end Reading

end Literal

end FormulaGraph
