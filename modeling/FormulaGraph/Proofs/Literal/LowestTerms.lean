import Mathlib.Data.Rat.Lemmas
import Mathlib.Tactic.Linarith
import Mathlib.Tactic.Ring
import FormulaGraph.Proofs.Literal.Normal

/-!
Which fractions have a normal form, and which it is: the fraction in lowest terms with a positive
denominator. A fraction whose denominator is not zero has it if these are numbers of 128 bits, but
for a numerator that is the least of them, since the limit is on magnitudes.
-/

namespace FormulaGraph

theorem Int128.eq_of_val {m n : Int128} (same : m.val = n.val) : m = n := by
  cases m
  cases n
  cases same
  rfl

/-- The one number without a positive counterpart. -/
def Int128.least : Int128 := ⟨-(1 <<< 127), by decide, by decide⟩

theorem Int128.natAbs_lt {n : Int128} (above : n ≠ least) : n.val.natAbs < 1 <<< 127 := by
  have lower := n.lower
  have upper := n.upper
  have above : n.val ≠ -(1 <<< 127) := fun same => above (eq_of_val same)
  omega

/-- The fraction `p / q` is the same number as `numer / denom`, in lowest terms and with a positive
denominator. -/
structure LowestTerms (numer denom p q : Int) : Prop where
  same : p * denom = numer * q
  positive : 0 < q
  coprime : Nat.gcd p.natAbs q.natAbs = 1

namespace LowestTerms

variable {numer denom p q : Int}

theorem exists_factor (lowest : LowestTerms numer denom p q) :
    ∃ k, numer = k * p ∧ denom = k * q := by
  have divides : q ∣ p * denom := ⟨numer, by rw [lowest.same, Int.mul_comm]⟩
  have coprime : Int.gcd q p = 1 := (Int.gcd_comm q p).trans lowest.coprime
  obtain ⟨k, rfl⟩ := Int.dvd_of_dvd_mul_right_of_gcd_one divides coprime
  refine ⟨k, ?_, Int.mul_comm q k⟩
  refine (Int.eq_of_mul_eq_mul_right (Int.ne_of_gt lowest.positive) ?_).symm
  rw [← lowest.same]
  ring

theorem rational (lowest : LowestTerms numer denom p q) (nonzero : denom ≠ 0) :
    (p : ℚ) / q = numer / denom := by
  have positive : (q : ℚ) ≠ 0 := Int.cast_ne_zero.mpr (Int.ne_of_gt lowest.positive)
  rw [div_eq_div_iff positive (Int.cast_ne_zero.mpr nonzero)]
  exact_mod_cast lowest.same

end LowestTerms

namespace Literal

variable {l l' : Literal} {sort : LogicSort} {numer denom p q : Int128}

/-- The numerator and the denominator of a literal that is a number at the sort; integers have them
as reals only. -/
def fraction? : Literal → LogicSort → Option (Int128 × Int128)
  | .int n, .real => some (n, 1)
  | .real p q, _ => some (p, q)
  | _, _ => none

theorem normalize_of_fraction? (fraction : l.fraction? sort = some (numer, denom)) :
    l.normalize sort = reduce l numer denom := by
  unfold fraction? at fraction
  split at fraction
  · cases fraction
    rfl
  · cases fraction
    unfold normalize
    rfl
  · cases fraction

theorem normalize_of_no_fraction (fraction : l.fraction? sort = none) :
    l.normalize sort = .ok l := by
  unfold fraction? at fraction
  split at fraction
  · cases fraction
  · cases fraction
  · rename_i fractional integral
    unfold normalize
    split
    · exact (integral _ rfl rfl).elim
    · exact (fractional _ _ rfl).elim
    · rfl

theorem lowestTerms?_value {numer denom : Int} {p q : Int128}
    (lowest : lowestTerms? numer denom = some (.real p q)) : p.val * denom = numer * q.val := by
  unfold lowestTerms? at lowest
  simp only [Option.bind_eq_bind, Option.bind_eq_some_iff, signedComponent?_eq_some_iff] at lowest
  obtain ⟨p', ⟨-, first⟩, q', ⟨-, second⟩, same⟩ := lowest
  cases same
  rw [if_neg Bool.false_ne_true] at second
  have numerAbs := Nat.mul_div_cancel' (Nat.gcd_dvd_left numer.natAbs denom.natAbs)
  have denomAbs := Nat.mul_div_cancel' (Nat.gcd_dvd_right numer.natAbs denom.natAbs)
  generalize Nat.gcd numer.natAbs denom.natAbs = g at *
  generalize numer.natAbs / g = a at *
  generalize denom.natAbs / g = b at *
  have magnitudes : (numer.natAbs : Int) * b = a * denom.natAbs := by
    rw [← numerAbs, ← denomAbs]
    push_cast
    ring
  have opposite : ∀ {n : Int}, n < 0 → (n.natAbs : Int) = -n := fun h => by omega
  have same : ∀ {n : Int}, ¬ n < 0 → (n.natAbs : Int) = n := fun h => by omega
  rw [first, second]
  by_cases negative : numer < 0 <;> by_cases below : denom < 0
  · rw [opposite negative, opposite below] at magnitudes
    simp only [negative, below, bne_self_eq_false, Bool.false_eq_true, if_false]
    linarith
  · rw [opposite negative, same below] at magnitudes
    simp only [negative, below, decide_true, decide_false, Bool.bne_false, if_true]
    linarith
  · rw [same negative, opposite below] at magnitudes
    simp only [negative, below, decide_true, decide_false, Bool.false_bne, if_true]
    linarith
  · rw [same negative, same below] at magnitudes
    simp only [negative, below, bne_self_eq_false, Bool.false_eq_true, if_false]
    linarith

theorem val_ne_zero (nonzero : denom ≠ 0) : denom.val ≠ 0 := fun zero =>
    nonzero (Int128.eq_of_val zero)

theorem lowestTerms_of_reduce (normal : reduce l numer denom = .ok l') :
    denom.val ≠ 0 ∧ ∃ p q, l' = .real p q ∧
      LowestTerms numer.val denom.val p.val q.val ∧ Reduced p q := by
  obtain ⟨p, q, rfl, reduced⟩ := reduce_ok normal
  unfold reduce at normal
  split at normal
  · cases normal
  · rename_i nonzero
    split at normal
    · rename_i found
      cases normal
      exact ⟨val_ne_zero nonzero, p, q, rfl,
        ⟨lowestTerms?_value found, reduced.positive, reduced.coprime⟩, reduced⟩
    · cases normal

/-- The lowest terms of a fraction are its normal form, unless the numerator is the least number. -/
theorem reduce_of_lowestTerms (nonzero : denom.val ≠ 0)
    (lowest : LowestTerms numer.val denom.val p.val q.val)
    (above : p ≠ .least) : reduce l numer denom = .ok (.real p q) := by
  obtain ⟨k, multiple, multiple'⟩ := lowest.exists_factor
  have factor : k ≠ 0 := by
    rintro rfl
    rw [Int.zero_mul] at multiple'
    exact nonzero multiple'
  have found := lowestTerms?_mul factor ⟨lowest.positive, lowest.coprime, Int128.natAbs_lt above⟩
  rw [← multiple, ← multiple'] at found
  rw [reduce, if_neg fun zero => nonzero (congrArg Int128.val zero), found]

theorem Reduced.ne_least (reduced : Reduced p q) : p ≠ .least := by
  rintro rfl
  exact absurd reduced.numer (by decide)

/-- A fraction has a normal form just if its denominator is not zero and its lowest terms are
numbers of 128 bits, of which the numerator is not the least. -/
theorem normalize_succeeds_iff (fraction : l.fraction? sort = some (numer, denom)) :
    (∃ l', l.normalize sort = .ok l') ↔ denom.val ≠ 0 ∧
      ∃ p q : Int128, LowestTerms numer.val denom.val p.val q.val ∧ p ≠ .least := by
  rw [normalize_of_fraction? fraction]
  constructor
  · rintro ⟨l', normal⟩
    obtain ⟨nonzero, p, q, -, lowest, reduced⟩ := lowestTerms_of_reduce normal
    exact ⟨nonzero, p, q, lowest, reduced.ne_least⟩
  · rintro ⟨nonzero, p, q, lowest, above⟩
    exact ⟨.real p q, reduce_of_lowestTerms nonzero lowest above⟩

/-- The least number over six has the least number over two among its multiples, but lowest terms
that are in range. -/
theorem normalize_succeeds_iff_sixth :
    (real .least ⟨6, by decide, by decide⟩).fraction? .real =
    some (.least, ⟨6, by decide, by decide⟩) ∧
    ∃ l', (real .least ⟨6, by decide, by decide⟩).normalize .real = .ok l' := by
  have lowest : LowestTerms Int128.least.val 6 (-(1 <<< 126)) 3 := ⟨by decide, by decide, by decide⟩
  refine ⟨rfl, (normalize_succeeds_iff rfl).mpr ⟨by decide, ?_⟩⟩
  exact ⟨⟨-(1 <<< 126), by decide, by decide⟩, ⟨3, by decide, by decide⟩, lowest, by decide⟩

/-- The least integer is a real with lowest terms in range that has no normal form. -/
theorem normalize_refuses_least :
    ¬ ∀ (l : Literal) (sort : LogicSort) (numer denom : Int128),
      l.fraction? sort = some (numer, denom) →
      denom.val ≠ 0 → (∃ p q : Int128, LowestTerms numer.val denom.val p.val q.val) →
      ∃ l', l.normalize sort = .ok l' := by
  intro every
  have lowest : LowestTerms Int128.least.val 1 Int128.least.val 1 := ⟨rfl, by decide, by decide⟩
  obtain ⟨l', normal⟩ := every (.int .least) .real .least 1 rfl (by decide) ⟨.least, 1, lowest⟩
  have refused : (int .least).normalize .real = .error (.usage (.outOfRange (.int .least))) := rfl
  cases refused.symm.trans normal

end Literal

end FormulaGraph
