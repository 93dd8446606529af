import FormulaGraph.Literal.Normal
import FormulaGraph.Literal.Parse
import FormulaGraph.Proofs.Error

/-!
Reading a literal and bringing it to normal form are plain. The normal form of a literal fits where
the literal did, and is its own normal form.
-/

namespace FormulaGraph.Literal

theorem plainly_reduce (l : Literal) (numer denom : Int128) : Plainly (reduce l numer denom) := by
  refine .ite (.error trivial) ?_
  split
  · exact .ok _
  · exact .error trivial

theorem plainly_normalize (l : Literal) (sort : LogicSort) : Plainly (l.normalize sort) := by
  unfold normalize
  split
  · exact plainly_reduce _ _ _
  · exact plainly_reduce _ _ _
  · exact .ok l

theorem plainly_parse (repr : String) (sort : LogicSort) (base : Nat) :
    Plainly (parse repr sort base) := by
  refine .ite (.error trivial) ?_
  dsimp only
  split
  case h_4 => exact .error trivial
  all_goals
    split
    · exact .ok _
    · exact .error trivial

theorem signedComponent?_eq_some_iff {negative : Bool} {magnitude : Nat} {p : Int128} :
    signedComponent? negative magnitude = some p ↔
      magnitude < 1 <<< 127 ∧ p.val = if negative then -(magnitude : Int) else magnitude := by
  unfold signedComponent?
  by_cases bounded : magnitude < 1 <<< 127
  · rw [if_pos bounded, Int128.ofInt?_eq_some_iff]
    exact (and_iff_right bounded).symm
  · rw [if_neg bounded]
    exact ⟨nofun, fun h => absurd h.1 bounded⟩

/-- The fraction is its own normal form. -/
structure Reduced (p q : Int128) : Prop where
  positive : 0 < q.val
  coprime : Nat.gcd p.val.natAbs q.val.natAbs = 1
  numer : p.val.natAbs < 1 <<< 127

theorem sign_of_mul {k p q : Int} (nonzero : k ≠ 0) (signed : p ≠ 0) (positive : 0 < q) :
    ((k * p < 0) != (k * q < 0)) = decide (p < 0) := by
  have unsigned {n : Int} (above : 0 < n) : decide (n < 0) = false :=
    decide_eq_false (Int.lt_asymm above)
  obtain below | above := Int.lt_or_gt_of_ne nonzero
  · rw [decide_eq_true (Int.mul_neg_of_neg_of_pos below positive)]
    obtain negative | above := Int.lt_or_gt_of_ne signed
    · rw [unsigned (Int.mul_pos_of_neg_of_neg below negative), decide_eq_true negative]
      rfl
    · rw [decide_eq_true (Int.mul_neg_of_neg_of_pos below above), unsigned above]
      rfl
  · rw [unsigned (Int.mul_pos above positive), Bool.bne_false]
    obtain negative | above' := Int.lt_or_gt_of_ne signed
    · rw [decide_eq_true (Int.mul_neg_of_pos_of_neg above negative), decide_eq_true negative]
    · rw [unsigned (Int.mul_pos above above'), unsigned above']

theorem lowestTerms?_mul {k : Int} {p q : Int128} (nonzero : k ≠ 0) (reduced : Reduced p q) :
    lowestTerms? (k * p.val) (k * q.val) = some (.real p q) := by
  have positive := reduced.positive
  have upper := q.upper
  have factor : 0 < k.natAbs := Int.natAbs_pos.mpr nonzero
  have common : Nat.gcd (k * p.val).natAbs (k * q.val).natAbs = k.natAbs := by
    rw [Int.natAbs_mul, Int.natAbs_mul, Nat.gcd_mul_left, reduced.coprime, Nat.mul_one]
  have numer : (k * p.val).natAbs / k.natAbs = p.val.natAbs := by
    rw [Int.natAbs_mul, Nat.mul_div_cancel_left _ factor]
  have denom : (k * q.val).natAbs / k.natAbs = q.val.natAbs := by
    rw [Int.natAbs_mul, Nat.mul_div_cancel_left _ factor]
  have first : signedComponent? ((k * p.val < 0) != (k * q.val < 0)) p.val.natAbs = some p := by
    refine signedComponent?_eq_some_iff.mpr ⟨reduced.numer, ?_⟩
    by_cases signed : p.val = 0
    · rw [signed]
      split <;> rfl
    · rw [sign_of_mul nonzero signed positive]
      by_cases negative : p.val < 0
      · rw [if_pos (decide_eq_true negative)]
        omega
      · rw [if_neg (by simpa using negative)]
        omega
  have second : signedComponent? false q.val.natAbs = some q := by
    refine signedComponent?_eq_some_iff.mpr ⟨by omega, ?_⟩
    rw [if_neg Bool.false_ne_true]
    omega
  simp [lowestTerms?, common, numer, denom, first, second]

theorem reduced_of_lowestTerms? {numer denom : Int} {l : Literal} (nonzero : denom ≠ 0)
    (lowest : lowestTerms? numer denom = some l) : ∃ p q, l = .real p q ∧ Reduced p q := by
  unfold lowestTerms? at lowest
  simp only [Option.bind_eq_bind, Option.bind_eq_some_iff, signedComponent?_eq_some_iff] at lowest
  obtain ⟨p, ⟨bounded, first⟩, q, ⟨-, second⟩, same⟩ := lowest
  rw [if_neg Bool.false_ne_true] at second
  have common : 0 < Nat.gcd numer.natAbs denom.natAbs := Nat.gcd_pos_of_pos_right _ (by omega)
  have numerAbs : p.val.natAbs = numer.natAbs / Nat.gcd numer.natAbs denom.natAbs := by
    rw [first]
    split
    · rw [Int.natAbs_neg, Int.natAbs_natCast]
    · rw [Int.natAbs_natCast]
  have denomAbs : q.val.natAbs = denom.natAbs / Nat.gcd numer.natAbs denom.natAbs := by
    rw [second, Int.natAbs_natCast]
  have positive : 0 < denom.natAbs / Nat.gcd numer.natAbs denom.natAbs :=
    Nat.div_pos (Nat.le_of_dvd (by omega) (Nat.gcd_dvd_right _ _)) common
  refine ⟨p, q, (Option.some.inj same).symm, ?_, ?_, ?_⟩
  · rw [second]
    exact Int.natCast_pos.mpr positive
  · rw [numerAbs, denomAbs]
    exact Nat.gcd_div_gcd_div_gcd_of_pos_right (by omega)
  · rwa [numerAbs]

theorem reduce_ok {l l' : Literal} {numer denom : Int128}
    (reduced : reduce l numer denom = .ok l') : ∃ p q, l' = .real p q ∧ Reduced p q := by
  unfold reduce at reduced
  split at reduced
  · cases reduced
  · rename_i nonzero
    split at reduced
    · rename_i lowest
      cases reduced
      refine reduced_of_lowestTerms? (fun zero => nonzero ?_) lowest
      cases denom
      cases zero
      rfl
    · cases reduced

theorem reduce_of_reduced {p q : Int128} (reduced : Reduced p q) :
    reduce (.real p q) p q = .ok (.real p q) := by
  have nonzero : q ≠ 0 := by
    rintro rfl
    exact absurd reduced.positive (by decide)
  have lowest := lowestTerms?_mul Int.one_ne_zero reduced
  rw [Int.one_mul, Int.one_mul] at lowest
  rw [reduce, if_neg nonzero, lowest]

theorem normalize_normalize {l l' : Literal} {sort : LogicSort}
    (normal : l.normalize sort = .ok l') : l'.normalize sort = .ok l' := by
  have whole := normal
  unfold normalize at normal
  split at normal
  · obtain ⟨p, q, rfl, reduced⟩ := reduce_ok normal
    exact reduce_of_reduced reduced
  · obtain ⟨p, q, rfl, reduced⟩ := reduce_ok normal
    exact reduce_of_reduced reduced
  · cases normal
    exact whole

theorem fits_normalize {l l' : Literal} {sort : LogicSort} (fits : l.fits sort = true)
    (normal : l.normalize sort = .ok l') : l'.fits sort = true := by
  unfold normalize at normal
  split at normal
  · obtain ⟨p, q, rfl, -⟩ := reduce_ok normal
    rfl
  · obtain ⟨p', q', rfl, -⟩ := reduce_ok normal
    cases sort with
    | real => rfl
    | _ => cases fits
  · cases normal
    exact fits

end FormulaGraph.Literal
