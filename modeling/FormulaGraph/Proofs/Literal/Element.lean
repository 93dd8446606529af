import FormulaGraph.Proofs.Literal.LowestTerms

/-!
What literals stand for. The normal form of a literal stands for the same element of the sort; and
of two literals in normal form that stand for one element, bit-vectors apart, neither differs from
the other. A bit-vector has a literal for every way to fill the bits above its width, of which
`ofBits` makes one.
-/

namespace FormulaGraph

/-- An element of Bool, Int, Real or a sort of bit-vectors. -/
inductive Element where
  | truth (b : Bool)
  | integer (n : Int)
  | rational (q : ℚ)
  /-- A number modulo the power of two that the width gives. -/
  | residue (n : Int)

/-- What an integer is at a sort. Words of 128 bits hold no wider bit-vectors. -/
def Element.ofInt (n : Int) : LogicSort → Option Element
  | .int => some (.integer n)
  | .real => some (.rational n)
  | .bitVec w => if w ≤ 128 then some (.residue (n % 2 ^ w.toNat)) else none
  | _ => none

/-- The integer that a numeral spells; a minus may be followed by a plus. -/
def Numeral.integer? (base : Nat) : List Char → Option Int
  | '-' :: cs => (digits? base (dropPlus cs)).map fun n => -(n : Int)
  | cs => (digits? base (dropPlus cs)).map fun n => (n : Int)

namespace Literal

/-- The element of the sort that the literal stands for. -/
def element? : Literal → LogicSort → Option Element
  | .bool b, .bool => some (.truth b)
  | .int n, .int => Element.ofInt n.val .int
  | .int n, .real => Element.ofInt n.val .real
  | .real p q, .real => if q.val = 0 then none else some (.rational (p.val / q.val))
  | .bitVec w bits, .bitVec v => if w = v then Element.ofInt bits.toNat (.bitVec v) else none
  | _, _ => none

/-- The element of the sort that a text spells in a base. -/
def spelt? (repr : String) (base : Nat) : LogicSort → Option Element
  | .bool =>
    if repr = "true" ∨ repr = "1" then some (.truth true)
    else if repr = "false" ∨ repr = "0" then some (.truth false)
    else none
  | sort => (Numeral.integer? base repr.toList).bind fun n => Element.ofInt n sort

/-- No bits are set above the width. -/
def Trimmed : Literal → Prop
  | .bitVec w bits => bits.toNat < 2 ^ w.toNat
  | _ => True

variable {l l' : Literal} {sort : LogicSort} {x : Element}

theorem trimmed_ofBits (w : UInt64) (bits : Word) : (ofBits w bits).Trimmed := by
  rw [ofBits, Trimmed]
  by_cases narrow : w ≤ 128
  · rw [toNat_and_mask bits narrow, Nat.one_shiftLeft]
    exact Nat.mod_lt _ (Nat.two_pow_pos _)
  · have wide : 128 ≤ w := UInt64.le_of_lt (UInt64.not_le.mp narrow)
    rw [and_mask_of_le bits wide]
    exact bits.isLt.trans_le (Nat.pow_le_pow_right (by decide) (UInt64.le_iff_toNat_le.mp wide))

theorem toNat_ofInt_word (n : Int) : ((BitVec.ofInt 128 n).toNat : Int) = n % 2 ^ 128 := by
  rw [BitVec.toNat_ofInt, Int.toNat_of_nonneg (Int.emod_nonneg n (by decide))]
  rfl

theorem toNat_ofInt_and_mask (w : UInt64) (n : Int) :
    ((BitVec.ofInt 128 n &&& mask w).toNat : Int) = n % 2 ^ min w.toNat 128 := by
  by_cases narrow : w ≤ 128
  · have small : w.toNat ≤ 128 := UInt64.le_iff_toNat_le.mp narrow
    rw [toNat_and_mask _ narrow, Nat.one_shiftLeft, Int.natCast_emod,
      toNat_ofInt_word, Int.natCast_pow,
      Nat.cast_ofNat, Int.emod_emod_of_dvd n (pow_dvd_pow 2 small), Nat.min_eq_left small]
  · have wide : 128 ≤ w := UInt64.le_of_lt (UInt64.not_le.mp narrow)
    have reached : 128 ≤ w.toNat := UInt64.le_iff_toNat_le.mp wide
    rw [and_mask_of_le _ wide, toNat_ofInt_word, Nat.min_eq_right reached]

theorem element?_ofBits (w : UInt64) (n : Int) :
    (ofBits w (BitVec.ofInt 128 n)).element? (.bitVec w) = Element.ofInt n (.bitVec w) := by
  rw [ofBits, element?, if_pos rfl, Element.ofInt, Element.ofInt]
  split
  · rename_i narrow
    have small : w.toNat ≤ 128 := UInt64.le_iff_toNat_le.mp narrow
    rw [toNat_ofInt_and_mask, Nat.min_eq_left small, Int.emod_emod]
  · rfl

theorem rational_of_reduce {numer denom : Int128} (reduced : reduce l numer denom = .ok l') :
    ∃ p q, l' = .real p q ∧ Reduced p q ∧ denom.val ≠ 0 ∧
      (p.val : ℚ) / q.val = numer.val / denom.val := by
  obtain ⟨nonzero, p, q, rfl, lowest, form⟩ := lowestTerms_of_reduce reduced
  exact ⟨p, q, rfl, form, nonzero, lowest.rational nonzero⟩

theorem Reduced.element? {p q : Int128} (reduced : Reduced p q) :
    (real p q).element? .real = some (.rational (p.val / q.val)) :=
  if_neg (Int.ne_of_gt reduced.positive)

/-- The normal form stands for the same element. -/
theorem element?_normalize (denotes : l.element? sort = some x)
    (normal : l.normalize sort = .ok l') :
    l'.element? sort = some x := by
  unfold normalize at normal
  split at normal
  · obtain ⟨p, q, rfl, reduced, -, value⟩ := rational_of_reduce normal
    rw [reduced.element?, value, ← denotes]
    have one : (1 : Int128).val = 1 := rfl
    rw [one, Int.cast_one, div_one]
    rfl
  · obtain ⟨p, q, rfl, reduced, nonzero, value⟩ := rational_of_reduce normal
    cases sort with
    | real =>
      rw [reduced.element?, value, ← denotes]
      exact (if_neg nonzero).symm
    | _ => cases denotes
  · cases normal
    exact denotes

theorem trimmed_normalize (trimmed : l.Trimmed) (normal : l.normalize sort = .ok l') :
    l'.Trimmed := by
  unfold normalize at normal
  split at normal
  · obtain ⟨p, q, rfl, -⟩ := reduce_ok normal
    trivial
  · obtain ⟨p, q, rfl, -⟩ := reduce_ok normal
    trivial
  · cases normal
    exact trimmed

theorem int_of_element? (denotes : l.element? .int = some x) :
    ∃ n, l = .int n ∧ x = .integer n.val := by
  cases l with
  | int n =>
    cases denotes
    exact ⟨n, rfl, rfl⟩
  | _ => cases denotes

/-- A literal in normal form that stands for a rational number is its fraction in lowest terms. -/
theorem real_of_normal (normal : l.normalize .real = .ok l) (denotes : l.element? .real = some x) :
    ∃ p q, l = .real p q ∧ Reduced p q ∧ x = .rational (p.val / q.val) := by
  cases l with
  | int n =>
    obtain ⟨p, q, same, -⟩ := reduce_ok normal
    cases same
  | real p q =>
    obtain ⟨p', q', same, reduced⟩ := reduce_ok normal
    cases same
    exact ⟨p, q, rfl, reduced, Option.some.inj (denotes.symm.trans reduced.element?)⟩
  | _ => cases denotes

theorem Reduced.eq {p q p' q' : Int128} (reduced : Reduced p q) (reduced' : Reduced p' q')
    (same : (p.val : ℚ) / q.val = p'.val / q'.val) : p = p' ∧ q = q' := by
  obtain ⟨numer, denom⟩ := Rat.div_int_inj reduced.positive reduced'.positive reduced.coprime
    reduced'.coprime same
  exact ⟨Int128.eq_of_val numer, Int128.eq_of_val denom⟩

theorem bits_of_trimmed {w : UInt64} (trimmed : l.Trimmed)
    (denotes : l.element? (.bitVec w) = some x) :
    ∃ bits, l = .bitVec w bits ∧ x = .residue bits.toNat := by
  cases l with
  | bitVec v bits =>
    rw [element?] at denotes
    split at denotes
    · rename_i same
      subst same
      rw [Element.ofInt] at denotes
      split at denotes
      · cases denotes
        refine ⟨bits, rfl, congrArg _ (Int.emod_eq_of_lt (Int.natCast_nonneg _) ?_)⟩
        exact_mod_cast trimmed
      · cases denotes
    · cases denotes
  | _ => cases denotes

/-- Two literals in normal form that stand for one element are one literal, unless one is a
bit-vector with bits above its width. -/
theorem eq_of_element? (normal : l.normalize sort = .ok l) (normal' : l'.normalize sort = .ok l')
    (denotes : l.element? sort = some x) (denotes' : l'.element? sort = some x)
    (trimmed : l.Trimmed) (trimmed' : l'.Trimmed) : l = l' := by
  cases sort with
  | bool =>
    cases l <;> cases denotes
    cases l' <;> cases denotes'
    rfl
  | int =>
    obtain ⟨n, rfl, rfl⟩ := int_of_element? denotes
    obtain ⟨n', rfl, same⟩ := int_of_element? denotes'
    rw [Int128.eq_of_val (Element.integer.inj same)]
  | real =>
    obtain ⟨p, q, rfl, reduced, value⟩ := real_of_normal normal denotes
    obtain ⟨p', q', rfl, reduced', rfl⟩ := real_of_normal normal' denotes'
    obtain ⟨rfl, rfl⟩ := reduced.eq reduced' (Element.rational.inj value).symm
    rfl
  | bitVec w =>
    obtain ⟨bits, rfl, value⟩ := bits_of_trimmed trimmed denotes
    obtain ⟨bits', rfl, rfl⟩ := bits_of_trimmed trimmed' denotes'
    have same := Element.residue.inj value
    rw [BitVec.eq_of_toNat_eq (Int.ofNat_inj.mp same)]
  | _ => cases l <;> cases denotes

end Literal

namespace Numeral

variable {base : Nat} {cs : List Char}

theorem dropPlus_of_digits? {n : Nat} (read : digits? base cs = some n) : dropPlus cs = cs := by
  unfold dropPlus
  split
  · have none : digit? base '+' = none := rfl
    rw [digits?, continue?, none] at read
    · cases read
    · exact List.cons_ne_nil _ _
  · rfl

theorem integer?_of_signed? {i : Int128} (read : signed? base cs = some i) :
    integer? base cs = some i.val := by
  unfold signed? at read
  split at read
  · obtain ⟨n, digits, read⟩ := Option.bind_eq_some_iff.mp read
    rw [integer?, dropPlus_of_digits? digits, digits, Int128.ofInt?_eq_some_iff.mp read]
    rfl
  · rename_i unsigned
    obtain ⟨n, digits, read⟩ := Option.bind_eq_some_iff.mp read
    rw [integer?, digits, Int128.ofInt?_eq_some_iff.mp read]
    · rfl
    · exact unsigned

theorem word_of_unsigned? {bits : Word} (read : unsigned? base cs = some bits) :
    ∃ n, digits? base (dropPlus cs) = some n ∧ bits = BitVec.ofNat 128 n := by
  obtain ⟨n, digits, read⟩ := Option.bind_eq_some_iff.mp read
  split at read
  · exact ⟨n, digits, (Option.some.inj read).symm⟩
  · cases read

end Numeral

namespace Literal

variable {l : Literal} {sort : LogicSort} {repr : String} {base : Nat}

theorem integer?_of_readBits? {w : UInt64} {cs : List Char} (read : readBits? w base cs = some l) :
    ∃ n, Numeral.integer? base cs = some n ∧ l = ofBits w (BitVec.ofInt 128 n) := by
  unfold readBits? at read
  split at read
  · obtain ⟨bits, word, rfl⟩ := Option.map_eq_some_iff.mp read
    obtain ⟨n, digits, rfl⟩ := Numeral.word_of_unsigned? word
    refine ⟨-n, ?_, ?_⟩
    · rw [Numeral.integer?, digits]
      rfl
    · rw [BitVec.ofInt_neg, BitVec.ofInt_natCast]
  · rename_i unsigned
    obtain ⟨bits, word, rfl⟩ := Option.map_eq_some_iff.mp read
    obtain ⟨n, digits, rfl⟩ := Numeral.word_of_unsigned? word
    refine ⟨n, ?_, ?_⟩
    · rw [Numeral.integer?, digits]
      · rfl
      · exact unsigned
    · rw [BitVec.ofInt_natCast]

/-- What is read stands for what is spelt. -/
theorem element?_of_parse (read : parse repr sort base = .ok l) :
    l.element? sort = spelt? repr base sort ∧ l.Trimmed := by
  unfold parse at read
  split at read
  · cases read
  · cases sort with
    | bool =>
      unfold spelt?
      dsimp only at read ⊢
      split at read
      · rename_i found
        cases read
        split at found
        · rename_i yes
          cases found
          exact ⟨(if_pos yes).symm, trivial⟩
        · rename_i no
          split at found
          · rename_i off
            cases found
            exact ⟨by rw [if_neg no, if_pos off]; rfl, trivial⟩
          · cases found
      · cases read
    | int =>
      dsimp only at read
      split at read
      · rename_i found
        cases read
        obtain ⟨i, signed, rfl⟩ := Option.map_eq_some_iff.mp found
        refine ⟨?_, trivial⟩
        rw [spelt?, Numeral.integer?_of_signed? signed]
        · rfl
        · exact nofun
      · cases read
    | bitVec w =>
      dsimp only at read
      split at read
      · rename_i found
        cases read
        obtain ⟨n, spelt, rfl⟩ := integer?_of_readBits? found
        refine ⟨?_, trimmed_ofBits w _⟩
        rw [spelt?, spelt, element?_ofBits]
        · rfl
        · exact nofun
      · cases read
    | _ => cases read

end Literal

end FormulaGraph
