import FormulaGraph.Proofs.Literal.Element
import Mathlib.Data.Nat.Digits.Lemmas

/-!
The grammar of numerals. A numeral has digits of the base, the highest first, and in front of them
nothing, a sign, or a minus and a plus. The last form is read at the sorts of bit-vectors only,
where the minus is taken off before the rest is read as an unsigned number, which may have a plus of
its own; apart from it, integers and bit-vectors have the same numerals.
-/

namespace FormulaGraph

namespace Numeral

/-- What stands in front of the digits of a numeral. -/
inductive Front where
  | bare
  | plus
  | minus
  /-- A minus and a plus after it. -/
  | minusPlus
  deriving DecidableEq

namespace Front

def text : Front → List Char
  | bare => []
  | plus => ['+']
  | minus => ['-']
  | minusPlus => ['-', '+']

def sign : Front → Int
  | bare | plus => 1
  | minus | minusPlus => -1

end Front

/-- The characters stand for these digits of the base, one by one. -/
def Digits (base : Nat) : List Char → List Nat → Prop :=
  List.Forall₂ fun c d => digit? base c = some d

/-- The characters are a numeral for the number: at least one digit, the highest first, after what
stands in front. -/
def Spells (base : Nat) (front : Front) (cs : List Char) (n : Int) : Prop :=
  ∃ digits ds, cs = front.text ++ digits ∧ digits ≠ [] ∧ Digits base digits ds ∧
    n = front.sign * (Nat.ofDigits base ds.reverse : Nat)

variable {base n m : Nat} {cs : List Char} {front : Front} {k : Int} {i : Int128} {bits : Word}

theorem continue?_eq_some_iff : continue? base n cs = some m ↔
    ∃ ds, Digits base cs ds ∧ m = Nat.ofDigits base ds.reverse + base ^ ds.length * n := by
  induction cs generalizing n with
  | nil => simp [continue?, Digits, eq_comm]
  | cons c cs ih =>
    rw [continue?, Option.bind_eq_bind, Option.bind_eq_some_iff]
    constructor
    · rintro ⟨d, digit, rest⟩
      obtain ⟨ds, digits, rfl⟩ := ih.mp rest
      refine ⟨d :: ds, .cons digit digits, ?_⟩
      rw [List.reverse_cons, Nat.ofDigits_append, Nat.ofDigits_singleton,
        List.length_reverse, List.length_cons]
      ring
    · rintro ⟨ds, digits, rfl⟩
      obtain ⟨d, ds, digit, rest, rfl⟩ := List.forall₂_cons_left_iff.mp digits
      refine ⟨d, digit, ih.mpr ⟨ds, rest, ?_⟩⟩
      rw [List.reverse_cons, Nat.ofDigits_append, Nat.ofDigits_singleton,
        List.length_reverse, List.length_cons]
      ring

theorem digits?_eq_some_iff : digits? base cs = some m ↔
    cs ≠ [] ∧ ∃ ds, Digits base cs ds ∧ m = Nat.ofDigits base ds.reverse := by
  cases cs with
  | nil => simp [digits?]
  | cons c cs =>
    have nonempty : c :: cs ≠ [] := List.cons_ne_nil c cs
    rw [digits?, continue?_eq_some_iff]
    · simp [nonempty]
    · exact nonempty

theorem spells_iff : Spells base front cs k ↔
    ∃ digits m, cs = front.text ++ digits ∧ digits? base digits = some m ∧
      k = front.sign * (m : Int) := by
  constructor
  · rintro ⟨digits, ds, rfl, nonempty, spelt, rfl⟩
    exact ⟨digits, _, rfl, digits?_eq_some_iff.mpr ⟨nonempty, ds, spelt, rfl⟩, rfl⟩
  · rintro ⟨digits, m, rfl, read, rfl⟩
    obtain ⟨nonempty, ds, spelt, rfl⟩ := digits?_eq_some_iff.mp read
    exact ⟨digits, ds, rfl, nonempty, spelt, rfl⟩

theorem digits?_sign {c : Char} (sign : c = '+' ∨ c = '-') : digits? base (c :: cs) = none := by
  have none : digit? base c = none := by
    obtain rfl | rfl := sign <;> rfl
  rw [digits?, continue?, none]
  · rfl
  · exact List.cons_ne_nil _ _

theorem spells_bare_iff :
    Spells base .bare cs k ↔ ∃ m, digits? base cs = some m ∧ k = (m : Int) := by
  simp [spells_iff, Front.text, Front.sign]

theorem digits?_dropPlus_eq_some_iff : digits? base (dropPlus cs) = some m ↔
    Spells base .bare cs m ∨ Spells base .plus cs m := by
  constructor
  · intro read
    unfold dropPlus at read
    split at read
    · exact .inr (spells_iff.mpr ⟨_, m, rfl, read, (one_mul _).symm⟩)
    · exact .inl (spells_bare_iff.mpr ⟨m, read, rfl⟩)
  · rintro (bare | plus)
    · obtain ⟨m', read, same⟩ := spells_bare_iff.mp bare
      rwa [dropPlus_of_digits? read, Int.ofNat_inj.mp same]
    · obtain ⟨digits, m', rfl, read, same⟩ := spells_iff.mp plus
      rw [Int.ofNat_inj.mp (same.trans (one_mul _))]
      exact read

theorem spells_minus_iff : Spells base .minus ('-' :: cs) k ↔ Spells base .bare cs (-k) := by
  simp [spells_iff, Front.text, Front.sign, neg_eq_iff_eq_neg]

theorem spells_minusPlus_iff :
    Spells base .minusPlus ('-' :: cs) k ↔ Spells base .plus cs (-k) := by
  simp [spells_iff, Front.text, Front.sign, neg_eq_iff_eq_neg]

theorem exists_front_minus {P : Front → Prop} :
    (∃ front, P front ∧ Spells base front ('-' :: cs) k) ↔
    (P .minus ∧ Spells base .bare cs (-k)) ∨ (P .minusPlus ∧ Spells base .plus cs (-k)) := by
  rw [← spells_minus_iff, ← spells_minusPlus_iff]
  constructor
  · rintro ⟨front, holds, spells⟩
    cases front with
    | bare =>
      obtain ⟨m, read, -⟩ := spells_bare_iff.mp spells
      rw [digits?_sign (.inr rfl)] at read
      cases read
    | plus =>
      obtain ⟨digits, m, same, -⟩ := spells_iff.mp spells
      cases same
    | minus => exact .inl ⟨holds, spells⟩
    | minusPlus => exact .inr ⟨holds, spells⟩
  · rintro (⟨holds, spells⟩ | ⟨holds, spells⟩)
    · exact ⟨.minus, holds, spells⟩
    · exact ⟨.minusPlus, holds, spells⟩

theorem exists_front_unsigned {P : Front → Prop} (unsigned : ∀ rest, cs ≠ '-' :: rest) :
    (∃ front, P front ∧ Spells base front cs k) ↔
      (P .bare ∧ Spells base .bare cs k) ∨ (P .plus ∧ Spells base .plus cs k) := by
  constructor
  · rintro ⟨front, holds, spells⟩
    cases front with
    | bare => exact .inl ⟨holds, spells⟩
    | plus => exact .inr ⟨holds, spells⟩
    | minus | minusPlus =>
      obtain ⟨digits, m, same, -⟩ := spells_iff.mp spells
      exact absurd same (unsigned _)
  · rintro (⟨holds, spells⟩ | ⟨holds, spells⟩)
    · exact ⟨.bare, holds, spells⟩
    · exact ⟨.plus, holds, spells⟩

theorem exists_spells_minus : (∃ front, Spells base front ('-' :: cs) k) ↔
    Spells base .bare cs (-k) ∨ Spells base .plus cs (-k) := by
  simpa using exists_front_minus (P := fun _ => True)

theorem exists_spells_unsigned (unsigned : ∀ rest, cs ≠ '-' :: rest) :
    (∃ front, Spells base front cs k) ↔ Spells base .bare cs k ∨ Spells base .plus cs k := by
  simpa using exists_front_unsigned (P := fun _ => True) unsigned

/-- What follows a minus and begins with a plus has no other reading, since a plus is no digit. -/
theorem Spells.eq_minusPlus {k' : Int} (spells : Spells base .minusPlus cs k)
    (spells' : Spells base front cs k') :
    front = .minusPlus := by
  obtain ⟨digits, m, rfl, -⟩ := spells_iff.mp spells
  by_contra single
  obtain ⟨-, bare⟩ | ⟨both, -⟩ :=
    (exists_front_minus (P := (· ≠ .minusPlus))).mp ⟨front, single, spells'⟩
  · obtain ⟨m, read, -⟩ := spells_bare_iff.mp bare
    have none : digits? base ('+' :: digits) = none := digits?_sign (.inl rfl)
    cases none.symm.trans read
  · exact both rfl

theorem exists_nat_of_unsigned (spells : Spells base .bare cs k ∨ Spells base .plus cs k) :
    ∃ m : Nat, k = m ∧ digits? base (dropPlus cs) = some m := by
  obtain ⟨m, rfl⟩ : ∃ m : Nat, k = m := by
    obtain spells | spells := spells
    · obtain ⟨m, -, value⟩ := spells_bare_iff.mp spells
      exact ⟨m, value⟩
    · obtain ⟨_, m, -, -, value⟩ := spells_iff.mp spells
      exact ⟨m, value.trans (one_mul _)⟩
  exact ⟨m, rfl, digits?_dropPlus_eq_some_iff.mpr spells⟩

theorem signed?_eq_some_iff :
    signed? base cs = some i ↔ ∃ front, front ≠ .minusPlus ∧ Spells base front cs i.val := by
  unfold signed?
  split
  · rw [exists_front_minus, spells_bare_iff, Option.bind_eq_bind, Option.bind_eq_some_iff]
    simp [Int128.ofInt?_eq_some_iff, neg_eq_iff_eq_neg]
  · rename_i unsigned
    rw [exists_front_unsigned unsigned, Option.bind_eq_bind, Option.bind_eq_some_iff]
    simp only [Int128.ofInt?_eq_some_iff, ne_eq, reduceCtorEq, not_false_eq_true, true_and]
    constructor
    · rintro ⟨m, read, value⟩
      exact value ▸ digits?_dropPlus_eq_some_iff.mp read
    · intro spells
      obtain ⟨m, value, read⟩ := exists_nat_of_unsigned spells
      exact ⟨m, read, value⟩

theorem unsigned?_eq_some_iff : unsigned? base cs = some bits ↔
    ∃ k : Int, (Spells base .bare cs k ∨ Spells base .plus cs k) ∧ k.natAbs < 2 ^ 128 ∧
      BitVec.ofInt 128 k = bits := by
  simp only [unsigned?, Option.bind_eq_bind, Option.bind_eq_some_iff,
    Option.ite_none_right_eq_some, Option.some_inj, Nat.one_shiftLeft]
  constructor
  · rintro ⟨m, read, small, rfl⟩
    exact ⟨m, digits?_dropPlus_eq_some_iff.mp read, small, BitVec.ofInt_natCast ..⟩
  · rintro ⟨k, spells, small, rfl⟩
    obtain ⟨m, rfl, read⟩ := exists_nat_of_unsigned spells
    exact ⟨m, read, small, (BitVec.ofInt_natCast ..).symm⟩

end Numeral

namespace Literal

open Numeral

variable {base : Nat} {cs : List Char} {repr : String} {w : UInt64} {l : Literal}

theorem readBits?_eq_some_iff : readBits? w base cs = some l ↔
    ∃ front n, Spells base front cs n ∧ n.natAbs < 2 ^ 128 ∧ l = ofBits w (BitVec.ofInt 128 n) := by
  unfold readBits?
  split
  · rw [Option.map_eq_some_iff]
    constructor
    · rintro ⟨bits, word, rfl⟩
      obtain ⟨k, spells, small, rfl⟩ := unsigned?_eq_some_iff.mp word
      obtain ⟨front, spells⟩ := exists_spells_minus.mpr ((neg_neg k).symm ▸ spells)
      exact ⟨front, -k, spells, k.natAbs_neg.trans_lt small, by rw [BitVec.ofInt_neg]⟩
    · rintro ⟨front, n, spells, small, rfl⟩
      have unsigned := exists_spells_minus.mp ⟨front, spells⟩
      refine ⟨_, unsigned?_eq_some_iff.mpr ⟨-n, unsigned, n.natAbs_neg.trans_lt small, rfl⟩, ?_⟩
      rw [BitVec.ofInt_neg, BitVec.neg_neg]
  · rename_i plain
    rw [Option.map_eq_some_iff]
    constructor
    · rintro ⟨bits, word, rfl⟩
      obtain ⟨k, spells, small, rfl⟩ := unsigned?_eq_some_iff.mp word
      obtain ⟨front, spells⟩ := (exists_spells_unsigned plain).mpr spells
      exact ⟨front, k, spells, small, rfl⟩
    · rintro ⟨front, n, spells, small, rfl⟩
      have unsigned := (exists_spells_unsigned plain).mp ⟨front, spells⟩
      exact ⟨_, unsigned?_eq_some_iff.mpr ⟨n, unsigned, small, rfl⟩, rfl⟩

theorem parse_int_eq_ok_iff : parse repr .int base = .ok l ↔ (2 ≤ base ∧ base ≤ 36) ∧
    ∃ front i, front ≠ .minusPlus ∧ Spells base front repr.toList i.val ∧ l = .int i := by
  have reads : parse repr .int base = .ok l ↔
      (2 ≤ base ∧ base ≤ 36) ∧ (signed? base repr.toList).map .int = some l := by
    rw [parse]
    split
    · simp only [reduceCtorEq, false_iff]
      omega
    · have known : 2 ≤ base ∧ base ≤ 36 := by omega
      cases signed? base repr.toList <;> simp [known]
  rw [reads, Option.map_eq_some_iff]
  simp only [signed?_eq_some_iff]
  refine and_congr_right fun _ => ⟨?_, ?_⟩
  · rintro ⟨i, ⟨front, single, spells⟩, rfl⟩
    exact ⟨front, i, single, spells, rfl⟩
  · rintro ⟨front, i, single, spells, rfl⟩
    exact ⟨i, ⟨front, single, spells⟩, rfl⟩

theorem parse_bitVec_eq_ok_iff : parse repr (.bitVec w) base = .ok l ↔ (2 ≤ base ∧ base ≤ 36) ∧
    ∃ front n, Spells base front repr.toList n ∧ n.natAbs < 2 ^ 128 ∧
      l = ofBits w (BitVec.ofInt 128 n) := by
  rw [← readBits?_eq_some_iff, parse]
  split
  · simp only [reduceCtorEq, false_iff]
    omega
  · have known : 2 ≤ base ∧ base ≤ 36 := by omega
    cases found : readBits? w base repr.toList <;> simp [known, found]

/-- Integers and bit-vectors of up to 128 bits have the same numerals, which stand for an integer
and for its residue, except that a bit-vector may have a minus and a plus in front of the digits. -/
theorem numerals_shared (least : 2 ≤ base) (greatest : base ≤ 36) (narrow : w ≤ 128) :
    (∀ l, parse repr .int base = .ok l → ∃ i bits, l = .int i ∧
      parse repr (.bitVec w) base = .ok (.bitVec w bits) ∧
        (bits.toNat : Int) = i.val % 2 ^ w.toNat) ∧
    (∀ l, parse repr (.bitVec w) base = .ok l → ∃ front n, Spells base front repr.toList n ∧
      (n.natAbs < 2 ^ 127 → ((∃ i : Int128, i.val = n ∧ parse repr .int base = .ok (.int i)) ↔
        front ≠ .minusPlus))) := by
  have known : 2 ≤ base ∧ base ≤ 36 := ⟨least, greatest⟩
  have small : w.toNat ≤ 128 := UInt64.le_iff_toNat_le.mp narrow
  constructor
  · intro l read
    obtain ⟨-, front, i, -, spells, rfl⟩ := parse_int_eq_ok_iff.mp read
    have lower := i.lower
    have upper := i.upper
    have fits : i.val.natAbs < 2 ^ 128 := by omega
    refine ⟨i, _, rfl, parse_bitVec_eq_ok_iff.mpr ⟨known, front, i.val, spells, fits, rfl⟩, ?_⟩
    rw [toNat_ofInt_and_mask, Nat.min_eq_left small]
  · intro l read
    obtain ⟨-, front, n, spells, -, -⟩ := parse_bitVec_eq_ok_iff.mp read
    refine ⟨front, n, spells, fun fits => ⟨?_, fun single => ?_⟩⟩
    · rintro ⟨i, rfl, read'⟩ rfl
      obtain ⟨-, front, i', single, spells', same⟩ := parse_int_eq_ok_iff.mp read'
      exact single (spells.eq_minusPlus spells')
    · obtain ⟨i, rfl⟩ : ∃ i : Int128, i.val = n := ⟨⟨n, by omega, by omega⟩, rfl⟩
      exact ⟨i, rfl, parse_int_eq_ok_iff.mpr ⟨known, front, i, single, spells, rfl⟩⟩

/-- A negative number, and its residue modulo 256. -/
theorem numerals_shared_negative : ((2 ≤ 10 ∧ 10 ≤ 36) ∧ (8 : UInt64) ≤ 128) ∧
    ∃ i bits, parse "-5" .int 10 = .ok (.int i) ∧ i.val = -5 ∧
      parse "-5" (.bitVec 8) 10 = .ok (.bitVec 8 bits) ∧ (bits.toNat : Int) = -5 % 2 ^ 8 := by
  have read : parse "-5" .int 10 = .ok (.int ⟨-5, by decide, by decide⟩) := rfl
  obtain ⟨i, bits, same, read', value⟩ :=
    (numerals_shared (w := 8) (by decide) (by decide) (by decide)).1 _ read
  cases same
  exact ⟨by decide, _, bits, read, rfl, read', value⟩

/-- A minus and a plus in front of a digit: a bit-vector, but no integer. -/
theorem doubly_signed_apart : ∃ l, parse "-+5" (.bitVec 8) 10 = .ok l ∧
    (Spells 10 .minusPlus "-+5".toList (-5) ∧ (-5 : Int).natAbs < 2 ^ 127) ∧
      ∀ l', parse "-+5" .int 10 ≠ .ok l' := by
  refine ⟨.bitVec 8 251, rfl,
    ⟨⟨['5'], [5], rfl, List.cons_ne_nil _ _, .cons rfl .nil, rfl⟩, by decide⟩, ?_⟩
  intro l' read
  cases read

end Literal

end FormulaGraph
