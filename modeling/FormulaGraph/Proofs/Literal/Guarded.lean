import FormulaGraph.Proofs.Guarded
import FormulaGraph.Proofs.Literal.Element

/-!
Bringing a fraction to lowest terms, computed on words of 128 bits with what must not happen made
visible: a result that is out of range, a division by zero, a search for the common factor without
end. None of this happens; and the normal forms of two literals are equal just if the literals are
the same number.
-/

namespace FormulaGraph

namespace Guarded

/-- The magnitude of a number, without its sign. -/
def magnitude (n : Int128) : Guarded Word :=
  if n.val.natAbs < 2 ^ 128 then pure (BitVec.ofNat 128 n.val.natAbs) else fault .wraps

def quotient (a b : Word) : Guarded Word := if b = 0 then fault .divisionByZero else pure (a / b)

def remainder (a b : Word) : Guarded Word := if b = 0 then fault .divisionByZero else pure (a % b)

/-- A number that has to be in range. -/
def inRange (n : Int) : Guarded Int128 :=
  match Int128.ofInt? n with
  | some i => pure i
  | none => fault .wraps

def product (m n : Int128) : Guarded Int128 := inRange (m.val * n.val)

def opposite (n : Int128) : Guarded Int128 := inRange (-n.val)

/-- The greatest common factor, at least one, if it is found in so many rounds. -/
def commonFactor : Nat → Word → Word → Guarded Word
  | 0, _, _ => fault .unending
  | rounds + 1, a, b => do
    if b = 0 then return if a = 0 then 1 else a
    commonFactor rounds b (← remainder a b)

/-- A component of the fraction with the factor cancelled; the error names the literal. -/
def component (l : Literal) (n : Int128) (factor : Word) : Guarded Int128 := do
  let rest ← quotient (← magnitude n) factor
  match Int128.ofInt? rest.toNat with
  | some m => if n.val < 0 then opposite m else return m
  | none => throw (.usage (.outOfRange l))

/-- What both components are multiplied by for a positive denominator. -/
def sign (denom : Int128) : Int128 := if denom.val < 0 then ⟨-1, by decide, by decide⟩ else 1

def reduce (rounds : Nat) (l : Literal) (numer denom : Int128) : Guarded Literal := do
  if denom = 0 then throw (.usage (.zeroDenominator l))
  let factor ← commonFactor rounds (← magnitude numer) (← magnitude denom)
  let p ← product (sign denom) (← component l numer factor)
  let q ← product (sign denom) (← component l denom factor)
  return .real p q

/-- The normal form of a literal, with so many rounds for the common factor. -/
def normalize (rounds : Nat) (l : Literal) (sort : LogicSort) : Guarded Literal :=
  match l.fraction? sort with
  | some (numer, denom) => reduce rounds l numer denom
  | none => pure l

theorem magnitude_eq (n : Int128) : magnitude n = pure (BitVec.ofNat 128 n.val.natAbs) := by
  have lower := n.lower
  have upper := n.upper
  exact if_pos (by omega)

theorem toNat_magnitude (n : Int128) : (BitVec.ofNat 128 n.val.natAbs).toNat = n.val.natAbs := by
  have lower := n.lower
  have upper := n.upper
  rw [BitVec.toNat_ofNat, Nat.mod_eq_of_lt (by omega)]

theorem inRange_eq (i : Int128) : inRange i.val = pure i := by
  rw [inRange, Int128.ofInt?_eq_some_iff.mpr rfl]

section CommonFactor

variable {a b : Word} {rounds k : Nat}

/-- The greatest common factor is found in so many rounds; of nothing and nothing it is one. -/
def Finds (rounds : Nat) (a b : Word) : Prop :=
  ∃ g : Word, commonFactor rounds a b = pure g ∧ g.toNat = max (Nat.gcd a.toNat b.toNat) 1

theorem toNat_ne_zero (nonzero : b ≠ 0) : b.toNat ≠ 0 := fun zero =>
    nonzero (BitVec.eq_of_toNat_eq zero)

theorem finds_zero : Finds (rounds + 1) a 0 := by
  have found : commonFactor (rounds + 1) a 0 = pure (if a = 0 then 1 else a) := rfl
  have whole : Nat.gcd a.toNat (0 : Word).toNat = a.toNat := Nat.gcd_zero_right _
  refine ⟨_, found, ?_⟩
  rw [whole]
  by_cases nothing : a = 0
  · rw [if_pos nothing, nothing]
    rfl
  · have := toNat_ne_zero nothing
    rw [if_neg nothing]
    omega

theorem finds_round (nonzero : b ≠ 0) (found : Finds rounds b (a % b)) :
    Finds (rounds + 1) a b := by
  obtain ⟨g, run, value⟩ := found
  have round : commonFactor (rounds + 1) a b = commonFactor rounds b (a % b) := by
    rw [commonFactor, if_neg nonzero, remainder, if_neg nonzero]
    rfl
  refine ⟨g, round.trans run, ?_⟩
  rw [value, BitVec.toNat_umod, Nat.gcd_comm b.toNat, ← Nat.gcd_rec, Nat.gcd_comm]

/-- One round at least halves the product of two numbers of which the second is not the larger. -/
theorem two_mul_round {a b : Nat} (ordered : b ≤ a) (nonzero : b ≠ 0) :
    2 * (b * (a % b)) ≤ a * b := by
  have positive := Nat.pos_of_ne_zero nonzero
  have below : a % b < b := Nat.mod_lt a positive
  have once : b + a % b ≤ a := by
    calc b + a % b ≤ b * (a / b) + a % b :=
          Nat.add_le_add_right (Nat.le_mul_of_pos_right b (Nat.div_pos ordered positive)) _
      _ = a := Nat.div_add_mod a b
  calc 2 * (b * (a % b)) = (a % b + a % b) * b := by ring
    _ ≤ a * b := Nat.mul_le_mul_right b (by omega)

/-- The rounds are as many as the product of the two numbers has binary digits, if the second is not
the larger. -/
theorem finds_ordered (ordered : b.toNat ≤ a.toNat) (small : a.toNat * b.toNat < 2 ^ k)
    (enough : k < rounds) :
    Finds rounds a b := by
  induction k generalizing a b rounds with
  | zero =>
    obtain ⟨rounds, rfl⟩ := Nat.exists_eq_succ_of_ne_zero (Nat.ne_of_gt enough)
    by_cases nothing : b = 0
    · exact nothing ▸ finds_zero
    · have positive := Nat.pos_of_ne_zero (toNat_ne_zero nothing)
      have product := Nat.mul_pos (Nat.lt_of_lt_of_le positive ordered) positive
      omega
  | succ k ih =>
    obtain ⟨rounds, rfl⟩ := Nat.exists_eq_succ_of_ne_zero (Nat.ne_of_gt (Nat.zero_lt_of_lt enough))
    by_cases nothing : b = 0
    · exact nothing ▸ finds_zero
    · have nonzero := toNat_ne_zero nothing
      have rest : (a % b).toNat = a.toNat % b.toNat := BitVec.toNat_umod
      have halved := two_mul_round ordered nonzero
      rw [← rest] at halved
      rw [Nat.pow_succ] at small
      refine finds_round nothing (ih ?_ (by omega) (Nat.lt_of_succ_lt_succ enough))
      rw [rest]
      exact Nat.le_of_lt (Nat.mod_lt _ (Nat.pos_of_ne_zero nonzero))

/-- Whatever the numbers are, the factor is found: after one round they are ordered. -/
theorem finds_all (a b : Word) (enough : 258 ≤ rounds) : Finds rounds a b := by
  have small (a b : Word) : a.toNat * b.toNat < 2 ^ 256 := by
    calc a.toNat * b.toNat ≤ (2 ^ 128 - 1) * (2 ^ 128 - 1) :=
          Nat.mul_le_mul (Nat.le_sub_one_of_lt a.isLt) (Nat.le_sub_one_of_lt b.isLt)
      _ < 2 ^ 256 := by decide
  by_cases ordered : b.toNat ≤ a.toNat
  · exact finds_ordered ordered (small a b) (by omega)
  · obtain ⟨rounds, rfl⟩ := Nat.exists_eq_succ_of_ne_zero (show rounds ≠ 0 by omega)
    have nothing : b ≠ 0 := by
      rintro rfl
      exact ordered (Nat.zero_le _)
    refine finds_round nothing (finds_ordered ?_ (small b (a % b)) (by omega))
    rw [BitVec.toNat_umod]
    exact Nat.le_of_lt (Nat.mod_lt _ (by omega))

end CommonFactor

section Components

variable {l : Literal} {n numer denom : Int128} {factor : Word} {rounds : Nat}

/-- A component of a fraction, or the error that it is out of range. -/
def orOutOfRange (l : Literal) : Option Int128 → Except Error Int128
  | some n => .ok n
  | none => .error (.usage (.outOfRange l))

theorem exists_signed {m : Nat} (bounded : m < 1 <<< 127) (negative : Bool) :
    ∃ p : Int128, p.val = if negative then -(m : Int) else m := by
  cases negative with
  | true => exact ⟨⟨-(m : Int), by omega, by omega⟩, rfl⟩
  | false => exact ⟨⟨m, by omega, by omega⟩, rfl⟩

theorem product_sign {m : Nat} {negative : Bool} {p r : Int128}
    (signed : p.val = if negative then -(m : Int) else m)
    (signed' : r.val = if negative != decide (denom.val < 0) then -(m : Int) else m) :
    product (sign denom) p = pure r := by
  have turned : (sign denom).val * p.val = r.val := by
    rw [sign]
    by_cases below : denom.val < 0
    · rw [if_pos below, signed, signed', decide_eq_true below]
      cases negative <;> simp
    · rw [if_neg below, signed, signed', decide_eq_false below, Bool.bne_false]
      exact Int.one_mul _
  rw [product, turned, inRange_eq]

theorem component_eq (nonzero : factor ≠ 0) :
    component l n factor =
      checked (orOutOfRange l
        (Literal.signedComponent? (n.val < 0) (n.val.natAbs / factor.toNat))) := by
  have rest : (BitVec.ofNat 128 n.val.natAbs / factor).toNat = n.val.natAbs / factor.toNat := by
    rw [BitVec.toNat_udiv, toNat_magnitude]
  rw [component, magnitude_eq, pure_bind, quotient, if_neg nonzero, pure_bind, rest]
  generalize n.val.natAbs / factor.toNat = m
  by_cases bounded : m < 1 <<< 127
  · have read : Int128.ofInt? m = some ⟨m, by omega, by omega⟩ := Int128.ofInt?_eq_some_iff.mpr rfl
    rw [read]
    dsimp only
    by_cases negative : n.val < 0
    · have signed :
          Literal.signedComponent? (n.val < 0) m = some ⟨-(m : Int), by omega, by omega⟩ :=
        Literal.signedComponent?_eq_some_iff.mpr ⟨bounded, (if_pos (decide_eq_true negative)).symm⟩
      rw [signed, if_pos negative]
      exact inRange_eq ⟨-(m : Int), by omega, by omega⟩
    · have signed : Literal.signedComponent? (n.val < 0) m = some ⟨m, by omega, by omega⟩ :=
        Literal.signedComponent?_eq_some_iff.mpr ⟨bounded, (if_neg (by simpa using negative)).symm⟩
      rw [signed, if_neg negative]
      rfl
  · have read : Int128.ofInt? m = none := dif_neg (by omega)
    have signed : Literal.signedComponent? (n.val < 0) m = none := if_neg bounded
    rw [read, signed]
    rfl

theorem product_sign_component (nonzero : factor ≠ 0) :
    (component l n factor >>= product (sign denom)) =
      checked (orOutOfRange l (Literal.signedComponent? ((n.val < 0) != (denom.val < 0))
        (n.val.natAbs / factor.toNat))) := by
  rw [component_eq nonzero]
  generalize n.val.natAbs / factor.toNat = m
  generalize decide (n.val < 0) = negative
  by_cases bounded : m < 1 <<< 127
  · obtain ⟨p, signed⟩ := exists_signed bounded negative
    obtain ⟨r, signed'⟩ := exists_signed bounded (negative != decide (denom.val < 0))
    rw [Literal.signedComponent?_eq_some_iff.mpr ⟨bounded, signed⟩,
      Literal.signedComponent?_eq_some_iff.mpr ⟨bounded, signed'⟩]
    exact product_sign signed signed'
  · have out (negative : Bool) : Literal.signedComponent? negative m = none := if_neg bounded
    rw [out, out]
    rfl

theorem meets_reduce (l : Literal) (numer denom : Int128) (enough : 258 ≤ rounds) :
    Meets (reduce rounds l numer denom) (Literal.reduce l numer denom) := by
  by_cases zero : denom = 0
  · rw [reduce, Literal.reduce, if_pos zero, if_pos zero]
    exact .throw rfl
  obtain ⟨g, found, value⟩ :=
    finds_all (BitVec.ofNat 128 numer.val.natAbs) (BitVec.ofNat 128 denom.val.natAbs) enough
  rw [toNat_magnitude, toNat_magnitude] at value
  have positive : 0 < Nat.gcd numer.val.natAbs denom.val.natAbs :=
    Nat.gcd_pos_of_pos_right _ (Int.natAbs_pos.mpr (Literal.val_ne_zero zero))
  have nonzero : g ≠ 0 := by
    rintro rfl
    have : (0 : Word).toNat = 0 := rfl
    omega
  have common : g.toNat = Nat.gcd numer.val.natAbs denom.val.natAbs := by omega
  rw [reduce, if_neg zero]
  simp only [magnitude_eq, pure_bind, found, ← bind_assoc, product_sign_component nonzero, common]
  rw [Literal.reduce, if_neg zero, Literal.lowestTerms?, bne_self_eq_false]
  generalize Literal.signedComponent? ((numer.val < 0) != (denom.val < 0)) _ = first
  generalize Literal.signedComponent? false _ = second
  cases first with
  | none => exact .throw rfl
  | some p =>
    cases second with
    | none => exact .throw rfl
    | some q => exact .pure _

/-- Nothing goes wrong when a literal is brought to normal form. -/
theorem meets_normalize (l : Literal) (sort : LogicSort) (enough : 258 ≤ rounds) :
    Meets (normalize rounds l sort) (l.normalize sort) := by
  rw [normalize]
  cases fraction : l.fraction? sort with
  | some pair =>
    rw [Literal.normalize_of_fraction? fraction]
    exact meets_reduce l pair.1 pair.2 enough
  | none =>
    rw [Literal.normalize_of_no_fraction fraction]
    exact .pure l

end Components

end Guarded

namespace Literal

variable {l l' m m' : Literal} {sort sort' : LogicSort} {numer denom numer' denom' : Int128}

/-- The normal form of a number is the fraction in lowest terms, at every sort its own normal
form. -/
theorem lowestTerms_of_normalize (fraction : l.fraction? sort = some (numer, denom))
    (normal : l.normalize sort = .ok l') :
    denom.val ≠ 0 ∧ ∃ p q, l' = .real p q ∧
      LowestTerms numer.val denom.val p.val q.val ∧ Reduced p q := by
  rw [normalize_of_fraction? fraction] at normal
  exact lowestTerms_of_reduce normal

theorem normalForm_inj (fraction : l.fraction? sort = some (numer, denom))
    (normal : l.normalize sort = .ok l')
    (fraction' : m.fraction? sort' = some (numer', denom')) (normal' : m.normalize sort' = .ok m') :
    (numer.val : ℚ) / denom.val = numer'.val / denom'.val ↔ l' = m' := by
  obtain ⟨nonzero, p, q, rfl, lowest, reduced⟩ := lowestTerms_of_normalize fraction normal
  obtain ⟨nonzero', p', q', rfl, lowest', reduced'⟩ := lowestTerms_of_normalize fraction' normal'
  rw [← lowest.rational nonzero, ← lowest'.rational nonzero']
  constructor
  · intro same
    obtain ⟨rfl, rfl⟩ := reduced.eq reduced' same
    rfl
  · intro same
    cases same
    rfl

/-- Bringing a literal to normal form comes to its end after at most 258 rounds for the common
factor, without a result out of range or a division by zero. The normal form of a number is its
fraction in lowest terms with a positive denominator, which is its own normal form, and two numbers
are equal just if their normal forms are. -/
theorem normalize_canonical (l : Literal) (sort : LogicSort) (rounds : Nat)
    (enough : 258 ≤ rounds) :
    (Guarded.normalize rounds l sort).run = .ok (l.normalize sort) ∧
    ∀ (numer denom : Int128) (l' : Literal), l.fraction? sort = some (numer, denom) →
      l.normalize sort = .ok l' →
      (denom.val ≠ 0 ∧ ∃ p q, l' = .real p q ∧ LowestTerms numer.val denom.val p.val q.val) ∧
      (∀ sort', l'.normalize sort' = .ok l') ∧
      ∀ (m : Literal) (sort' : LogicSort) (numer' denom' : Int128) (m' : Literal),
        m.fraction? sort' = some (numer', denom') → m.normalize sort' = .ok m' →
        ((numer.val : ℚ) / denom.val = numer'.val / denom'.val ↔ l' = m') := by
  refine ⟨(Guarded.meets_normalize l sort enough).eq, ?_⟩
  intro numer denom l' fraction normal
  obtain ⟨nonzero, p, q, same, lowest, reduced⟩ := lowestTerms_of_normalize fraction normal
  refine ⟨⟨nonzero, p, q, same, lowest⟩, ?_, ?_⟩
  · intro sort'
    rw [same]
    exact (normalize_of_fraction? rfl).trans (reduce_of_reduced reduced)
  · intro m sort' numer' denom' m' fraction' normal'
    exact normalForm_inj fraction normal fraction' normal'

/-- The least number over itself is one. -/
theorem normalize_canonical_least :
    (Guarded.normalize 258 (real .least .least) .real).run = .ok (.ok (real 1 1)) ∧
    LowestTerms Int128.least.val Int128.least.val 1 1 ∧
    (Int128.least.val : ℚ) / Int128.least.val = (1 : Int128).val / (1 : Int128).val := by
  have normal : (real .least .least).normalize .real = .ok (real 1 1) := rfl
  have normal' : (int 1).normalize .real = .ok (real 1 1) := rfl
  obtain ⟨run, form⟩ := normalize_canonical (real .least .least) .real 258 (by decide)
  obtain ⟨⟨-, p, q, same, lowest⟩, -, injective⟩ := form .least .least (real 1 1) rfl normal
  cases same
  exact ⟨run.trans (congrArg _ normal), lowest,
    (injective (int 1) .real 1 1 (real 1 1) rfl normal').mpr rfl⟩

end Literal

end FormulaGraph
