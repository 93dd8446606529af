import FormulaGraph.Proofs.Enumeration.Totality
import FormulaGraph.Proofs.Op.Width
import Mathlib.Algebra.Order.BigOperators.Group.List
import Mathlib.Algebra.Order.Group.Nat

/-!
Operators on bit-vectors mean the standard operations. The enumerating engine computes in whole
words and truncates once; what it gives is what the operation gives on bit-vectors of the width of
the sort: modulo a power of two, in two's complement where the order is signed, and with the first
of several concatenated bit-vectors most significant.
-/

namespace FormulaGraph

/-- A bit-vector together with its width. -/
structure Bits where
  width : UInt64
  val : BitVec width.toNat

namespace Bits

/-- The bits in a word, with the width beside them. -/
def word (x : Bits) : UInt64 × Word := (x.width, x.val.setWidth 128)

def datum (x : Bits) : Datum := .bitVec x.width (x.val.setWidth 128)

/-- The widths of bit-vectors, added up. -/
def total : List Bits → Nat
  | [] => 0
  | x :: xs => x.width.toNat + total xs

/-- The bit-vectors one after the other, the first one most significant. -/
def joined : (xs : List Bits) → BitVec (total xs)
  | [] => 0#0
  | x :: xs => x.val ++ joined xs

end Bits

namespace PrimOp

/-- The operation on one bit-vector. -/
def onOne (w : Nat) : PrimOp → Option (BitVec w → BitVec w)
  | .bvNot => some (~~~ ·)
  | .bvNeg => some (- ·)
  | _ => none

/-- The operation on two bit-vectors of one width; on more of them it is repeated from the left. -/
def onTwo (w : Nat) : PrimOp → Option (BitVec w → BitVec w → BitVec w)
  | .bvAnd => some (· &&& ·)
  | .bvOr => some (· ||| ·)
  | .bvXor => some (· ^^^ ·)
  | .bvAdd => some (· + ·)
  | .bvSub => some (· - ·)
  | .bvMul => some (· * ·)
  | _ => none

/-- The order of two bit-vectors of one width, by their numbers or in two's complement. -/
def relation (w : Nat) : PrimOp → Option (BitVec w → BitVec w → Bool)
  | .bvUlt => some fun x y => x.toNat < y.toNat
  | .bvUle => some fun x y => x.toNat ≤ y.toNat
  | .bvUgt => some fun x y => y.toNat < x.toNat
  | .bvUge => some fun x y => y.toNat ≤ x.toNat
  | .bvSlt => some fun x y => x.toInt < y.toInt
  | .bvSle => some fun x y => x.toInt ≤ y.toInt
  | _ => none

/-- The operators on bit-vectors that the enumerating engine knows. -/
def isOnBits : PrimOp → Bool
  | .bvNot | .bvNeg | .bvAnd | .bvOr | .bvXor | .bvAdd | .bvSub | .bvMul => true
  | .bvUlt | .bvUle | .bvUgt | .bvUge | .bvSlt | .bvSle | .concat | .extract | .zeroExtend => true
  | _ => false

end PrimOp

/-- What an operator gives on bit-vectors by the standard, and of which sort that is. -/
inductive Standard : Op → List Bits → LogicSort → Datum → Prop
  | one {prim : PrimOp} {w : UInt64} {f : BitVec w.toNat → BitVec w.toNat}
      (means : prim.onOne w.toNat = some f)
      (x : BitVec w.toNat) : Standard ⟨prim, .none⟩ [⟨w, x⟩] (.bitVec w) (Bits.datum ⟨w, f x⟩)
  | many {prim : PrimOp} {w : UInt64} {f : BitVec w.toNat → BitVec w.toNat → BitVec w.toNat}
      (means : prim.onTwo w.toNat = some f) (x : BitVec w.toNat) (rest : List (BitVec w.toNat)) :
      Standard ⟨prim, .none⟩ ((x :: rest).map (Bits.mk w)) (.bitVec w)
        (Bits.datum ⟨w, rest.foldl f x⟩)
  | compare {prim : PrimOp} {w : UInt64} {r : BitVec w.toNat → BitVec w.toNat → Bool}
      (means : prim.relation w.toNat = some r) (x y : BitVec w.toNat) :
      Standard ⟨prim, .none⟩ [⟨w, x⟩, ⟨w, y⟩] .bool (.bool (r x y))
  | concat {xs : List Bits} {w : UInt64} (width : Bits.total xs = w.toNat) :
      Standard ⟨.concat, .none⟩ xs (.bitVec w) (Bits.datum ⟨w, (Bits.joined xs).cast width⟩)
  | extract {w high low v : UInt64} (x : BitVec w.toNat) (below : high < w) (ordered : low ≤ high)
      (width : high.toNat - low.toNat + 1 = v.toNat) :
      Standard (.extract high low) [⟨w, x⟩] (.bitVec v)
        (Bits.datum ⟨v, (x.extractLsb high.toNat low.toNat).cast width⟩)
  | zeroExtend {w i v : UInt64} (x : BitVec w.toNat) (width : w.toNat + i.toNat = v.toNat) :
      Standard ⟨.zeroExtend, .one i⟩ [⟨w, x⟩] (.bitVec v)
        (Bits.datum ⟨v, (x.zeroExtend _).cast width⟩)

/-- The datum is a bit-vector of the sort, below the power of two of its width; the width is
positive and fits into a word. -/
def IsNarrow (sort : LogicSort) (x : Datum) : Prop :=
  ∃ w bits, sort = .bitVec w ∧ x = .bitVec w bits ∧ 0 < w ∧ w ≤ 128 ∧ bits.toNat < 2 ^ w.toNat

section Truncation

variable {n : Nat} {w : UInt64}

theorem toNat_le_of_narrow (narrow : w ≤ 128) : w.toNat ≤ 128 := UInt64.le_iff_toNat_le.mp narrow

theorem and_mask (bits : Word) (narrow : w ≤ 128) :
    bits &&& mask w = (bits.setWidth w.toNat).setWidth 128 := by
  refine BitVec.eq_of_toNat_eq ?_
  rw [toNat_and_mask bits narrow, BitVec.toNat_setWidth_of_le (toNat_le_of_narrow narrow),
    BitVec.toNat_setWidth, Nat.one_shiftLeft]

theorem Datum.ofBits_eq_datum (bits : Word) (narrow : w ≤ 128) :
    Datum.ofBits w bits = Bits.datum ⟨w, bits.setWidth w.toNat⟩ :=
      congrArg (Datum.bitVec w) (and_mask bits narrow)

theorem and_mask_eq_self_iff (bits : Word) (narrow : w ≤ 128) :
    bits &&& mask w = bits ↔ bits.toNat < 2 ^ w.toNat := by
  rw [← BitVec.toNat_inj, toNat_and_mask bits narrow, Nat.one_shiftLeft]
  exact Nat.mod_eq_iff_lt (Nat.two_pow_pos _).ne'

theorem setWidth_sub_of_le (x y : BitVec n) {m : Nat} (le : m ≤ n) :
    (x - y).setWidth m = x.setWidth m - y.setWidth m := by
  rw [BitVec.sub_eq_add_neg, BitVec.setWidth_add _ _ le, BitVec.setWidth_neg_of_le le,
    ← BitVec.sub_eq_add_neg]

theorem setWidth_setWidth_self (x : BitVec w.toNat) (narrow : w ≤ 128) :
    (x.setWidth 128).setWidth w.toNat = x := by
  rw [BitVec.setWidth_setWidth_of_le x (toNat_le_of_narrow narrow), BitVec.setWidth_eq]

/-- The sign, moved to the top of the word and back, makes the number in two's complement. -/
theorem Datum.toInt_shifted (x : BitVec w.toNat) (narrow : w ≤ 128) :
    (((x.setWidth 128 : Word) <<< (128 - w.toNat)).sshiftRight (128 - w.toNat)).toInt =
    x.toInt := by
  have le := toNat_le_of_narrow narrow
  have split : 2 ^ 128 = 2 ^ w.toNat * 2 ^ (128 - w.toNat) := by
    rw [← Nat.pow_add, Nat.add_sub_cancel' le]
  have positive : 0 < 2 ^ (128 - w.toNat) := Nat.two_pow_pos _
  have shifted : (x.setWidth 128 <<< (128 - w.toNat)).toNat = x.toNat * 2 ^ (128 - w.toNat) := by
    rw [BitVec.toNat_shiftLeft, BitVec.toNat_setWidth_of_le le, Nat.shiftLeft_eq]
    refine Nat.mod_eq_of_lt ?_
    rw [split]
    exact Nat.mul_lt_mul_of_pos_right x.isLt positive
  have sign : 2 * (x.toNat * 2 ^ (128 - w.toNat)) < 2 ^ 128 ↔ 2 * x.toNat < 2 ^ w.toNat := by
    rw [split, ← Nat.mul_assoc]
    exact Nat.mul_lt_mul_right positive
  have nonzero : (2 : Int) ^ (128 - w.toNat) ≠ 0 := by exact_mod_cast positive.ne'
  rw [BitVec.toInt_sshiftRight, BitVec.toInt_eq_toNat_cond, shifted, BitVec.toInt_eq_toNat_cond,
    Int.shiftRight_eq_div_pow]
  by_cases small : 2 * x.toNat < 2 ^ w.toNat
  · rw [if_pos small, if_pos (sign.mpr small)]
    push_cast
    exact Int.mul_ediv_cancel _ nonzero
  · rw [if_neg small, if_neg fun h => small (sign.mp h), split]
    push_cast
    rw [← Int.sub_mul]
    exact Int.mul_ediv_cancel _ nonzero

theorem Datum.signed_setWidth (x : BitVec w.toNat) (narrow : w ≤ 128) :
    signed w (x.setWidth 128) = .ok x.toInt := by
  unfold signed
  split
  · rename_i none
    subst none
    exact congrArg Except.ok (congrArg BitVec.toInt (BitVec.of_length_zero (x := x))).symm
  · rename_i positive
    have le := toNat_le_of_narrow narrow
    have some' : w.toNat ≠ 0 := fun zero => positive (UInt64.toNat_inj.mp zero)
    have low : w.toUInt32.toNat = w.toNat := by
      rw [UInt64.toNat_toUInt32]
      exact Nat.mod_eq_of_lt (by omega)
    rw [low, within_of_lt (by omega), bind_of_ok rfl, within_of_lt (by omega), bind_of_ok rfl]
    exact congrArg Except.ok (toInt_shifted x narrow)

end Truncation

namespace PrimOp

variable {prim : PrimOp} {n m : Nat}

/-- An operation on bit-vectors, truncated, is the operation on truncated bit-vectors. -/
theorem setWidth_onOne {f : BitVec n → BitVec n} {g : BitVec m → BitVec m} (le : m ≤ n)
    (wide : prim.onOne n = some f) (narrow : prim.onOne m = some g) (x : BitVec n) :
    (f x).setWidth m = g (x.setWidth m) := by
  cases prim with
  | bvNot => cases wide; cases narrow; exact BitVec.setWidth_not le
  | bvNeg => cases wide; cases narrow; exact BitVec.setWidth_neg_of_le le
  | _ => cases wide

theorem setWidth_onTwo {f : BitVec n → BitVec n → BitVec n}
    {g : BitVec m → BitVec m → BitVec m} (le : m ≤ n)
    (wide : prim.onTwo n = some f) (narrow : prim.onTwo m = some g) (x y : BitVec n) :
    (f x y).setWidth m = g (x.setWidth m) (y.setWidth m) := by
  cases prim with
  | bvAnd => cases wide; cases narrow; exact BitVec.setWidth_and
  | bvOr => cases wide; cases narrow; exact BitVec.setWidth_or
  | bvXor => cases wide; cases narrow; exact BitVec.setWidth_xor
  | bvAdd => cases wide; cases narrow; exact BitVec.setWidth_add x y le
  | bvSub => cases wide; cases narrow; exact setWidth_sub_of_le x y le
  | bvMul => cases wide; cases narrow; exact BitVec.setWidth_mul x y le
  | _ => cases wide

theorem exists_onOne {f : BitVec n → BitVec n} (means : prim.onOne n = some f) (m : Nat) :
    ∃ g, prim.onOne m = some g := by
  cases prim with
  | bvNot | bvNeg => exact ⟨_, rfl⟩
  | _ => cases means

theorem exists_onTwo {f : BitVec n → BitVec n → BitVec n}
    (means : prim.onTwo n = some f) (m : Nat) :
    ∃ g, prim.onTwo m = some g := by
  cases prim with
  | bvAnd | bvOr | bvXor | bvAdd | bvSub | bvMul => exact ⟨_, rfl⟩
  | _ => cases means

end PrimOp

namespace Datum

variable {prim : PrimOp} {indices : Indices} {w : UInt64}

theorem mapM_asBits (xs : List Bits) :
    (xs.map Bits.datum).mapM asBits = .ok (xs.map Bits.word) := by
  induction xs with
  | nil => rfl
  | cons x xs ih =>
    rw [List.map_cons, List.mapM_cons, ih]
    rfl

theorem apply_one {f : Word → Word} (means : prim.onOne 128 = some f) (x : Bits) :
    apply ⟨prim, indices⟩ [x.datum] (.bitVec w) = .ok (ofBits w (f (x.val.setWidth 128))) := by
  cases prim with
  | bvNot | bvNeg => cases means; rfl
  | _ => cases means

theorem apply_many {f : Word → Word → Word} (means : prim.onTwo 128 = some f) (args : List Datum) :
    apply ⟨prim, indices⟩ args (.bitVec w) = foldBits f w args := by
  cases prim with
  | bvAnd | bvOr | bvXor | bvAdd | bvSub | bvMul => cases means; rfl
  | _ => cases means

theorem setWidth_foldl {f : Word → Word → Word}
    {g : BitVec w.toNat → BitVec w.toNat → BitVec w.toNat}
    (keeps : ∀ x y : Word, (f x y).setWidth w.toNat = g (x.setWidth w.toNat) (y.setWidth w.toNat))
    (narrow : w ≤ 128)
    (rest : List (BitVec w.toNat)) (acc : Word) :
    (((rest.map (Bits.mk w)).map Bits.word).foldl (fun acc b => f acc b.2) acc).setWidth w.toNat =
      rest.foldl g (acc.setWidth w.toNat) := by
  induction rest generalizing acc with
  | nil => rfl
  | cons y rest ih =>
    have step : (f acc (y.setWidth 128)).setWidth w.toNat = g (acc.setWidth w.toNat) y := by
      rw [keeps, setWidth_setWidth_self y narrow]
    exact (ih _).trans (congrArg (rest.foldl g) step)

theorem foldBits_datum (f : Word → Word → Word) (x : BitVec w.toNat)
    (rest : List (BitVec w.toNat)) :
    foldBits f w (((x :: rest).map (Bits.mk w)).map Bits.datum) =
      .ok (ofBits w (((rest.map (Bits.mk w)).map Bits.word).foldl (fun acc b => f acc b.2)
        (x.setWidth 128))) := by
  rw [foldBits, mapM_asBits]
  rfl

theorem foldlM_appendBits (xs : List Bits) (acc : Word) {n : Nat} (below : acc.toNat < 2 ^ n)
    (fits : n + Bits.total xs ≤ 128) (apart : ∀ x ∈ xs, x.width.toNat < 128) :
    ∃ gathered, (xs.map Bits.word).foldlM appendBits acc = .ok gathered ∧
      gathered.toNat = acc.toNat <<< Bits.total xs ||| (Bits.joined xs).toNat := by
  induction xs generalizing acc n with
  | nil => exact ⟨acc, rfl, (Nat.or_zero _).symm⟩
  | cons x xs ih =>
    obtain ⟨first, apart⟩ := List.forall_mem_cons.mp apart
    have sum : n + x.width.toNat + Bits.total xs ≤ 128 := by
      rwa [Bits.total, ← Nat.add_assoc] at fits
    have narrow : x.width.toNat ≤ 128 := by omega
    -- No shift drops a bit, as what is there and what follows fit into a word together.
    have shifted : acc.toNat <<< x.width.toNat < 2 ^ (n + x.width.toNat) := by
      rw [Nat.shiftLeft_eq, Nat.pow_add]
      exact Nat.mul_lt_mul_of_pos_right below (Nat.two_pow_pos _)
    have appended : appendBits acc x.word = .ok (acc <<< x.width.toNat ||| x.val.setWidth 128) := by
      rw [appendBits, Bits.word, within_of_lt first]
      rfl
    have value : (acc <<< x.width.toNat ||| x.val.setWidth 128).toNat =
        acc.toNat <<< x.width.toNat ||| x.val.toNat := by
      rw [BitVec.toNat_or, BitVec.toNat_shiftLeft, BitVec.toNat_setWidth_of_le narrow]
      refine congrArg (· ||| x.val.toNat) (Nat.mod_eq_of_lt (shifted.trans_le ?_))
      exact Nat.pow_le_pow_right Nat.two_pos (by omega)
    have bound : (acc <<< x.width.toNat ||| x.val.setWidth 128).toNat <
        2 ^ (n + x.width.toNat) := by
      rw [value]
      exact Nat.or_lt_two_pow shifted
        (x.val.isLt.trans_le (Nat.pow_le_pow_right Nat.two_pos (by omega)))
    obtain ⟨gathered, followed, number⟩ := ih _ bound sum apart
    refine ⟨gathered, ?_, ?_⟩
    · rw [List.map_cons, List.foldlM_cons, bind_of_ok appended, followed]
    · rw [number, value, Nat.shiftLeft_or_distrib, ← Nat.shiftLeft_add, Nat.or_assoc]
      exact congrArg (_ ||| ·) (BitVec.toNat_append x.val (Bits.joined xs)).symm

theorem apply_compare {r : BitVec w.toNat → BitVec w.toNat → Bool}
    (means : prim.relation w.toNat = some r)
    (narrow : w ≤ 128) (x y : BitVec w.toNat) {sort : LogicSort} :
    apply ⟨prim, indices⟩ [Bits.datum ⟨w, x⟩, Bits.datum ⟨w, y⟩] sort = .ok (.bool (r x y)) := by
  have value (z : BitVec w.toNat) : (z.setWidth 128).toNat = z.toNat :=
    BitVec.toNat_setWidth_of_le (toNat_le_of_narrow narrow)
  cases prim with
  | bvUlt | bvUle | bvUgt | bvUge =>
    cases means
    show Except.ok (Datum.bool (decide _)) = _
    simp only [BitVec.lt_def, BitVec.le_def, value]
  | bvSlt | bvSle =>
    cases means
    show Datum.bool <$> signedly _ (w, x.setWidth 128) (w, y.setWidth 128) = _
    rw [signedly, signed_setWidth x narrow, signed_setWidth y narrow]
    rfl
  | _ => cases means

theorem apply_concat {xs : List Bits} (width : Bits.total xs = w.toNat) (narrow : w ≤ 128)
    (apart : ∀ x ∈ xs, x.width.toNat < 128) :
    apply ⟨.concat, indices⟩ (xs.map Bits.datum) (.bitVec w) =
      .ok (Bits.datum ⟨w, (Bits.joined xs).cast width⟩) := by
  have le := toNat_le_of_narrow narrow
  obtain ⟨gathered, followed, number⟩ :=
    foldlM_appendBits xs 0 (n := 0) Nat.one_pos (by omega) apart
  rw [show (0 : Word).toNat = 0 from rfl, Nat.zero_shiftLeft, Nat.zero_or] at number
  refine (bind_of_ok (mapM_asBits xs)).trans ((bind_of_ok followed).trans ?_)
  refine congrArg Except.ok ((ofBits_eq_datum _ narrow).trans ?_)
  refine congrArg (fun z => Bits.datum ⟨w, z⟩) (BitVec.eq_of_toNat_eq ?_)
  rw [BitVec.toNat_setWidth, number, BitVec.toNat_cast, ← width]
  exact Nat.mod_eq_of_lt (Bits.joined xs).isLt

theorem apply_extract {high low v : UInt64} (x : BitVec w.toNat) (below : low.toNat < 128)
    (width : high.toNat - low.toNat + 1 = v.toNat) (narrow : w ≤ 128) (narrow' : v ≤ 128) :
    apply (.extract high low) [Bits.datum ⟨w, x⟩] (.bitVec v) =
      .ok (Bits.datum ⟨v, (x.extractLsb high.toNat low.toNat).cast width⟩) := by
  have applied : apply (.extract high low) [Bits.datum ⟨w, x⟩] (.bitVec v) =
    (fun low => ofBits v (x.setWidth 128 >>> low)) <$> within 128 low.toNat := rfl
  rw [applied, within_of_lt below]
  refine congrArg Except.ok ((ofBits_eq_datum _ narrow').trans ?_)
  refine congrArg (fun z => Bits.datum ⟨v, z⟩) (BitVec.eq_of_toNat_eq ?_)
  show ((x.setWidth 128 >>> low.toNat).setWidth v.toNat).toNat = _
  rw [BitVec.toNat_setWidth, BitVec.toNat_ushiftRight,
    BitVec.toNat_setWidth_of_le (toNat_le_of_narrow narrow),
    BitVec.toNat_cast, BitVec.extractLsb_toNat, width]

theorem apply_zeroExtend {i v : UInt64} (x : BitVec w.toNat) (width : w.toNat + i.toNat = v.toNat)
    (narrow' : v ≤ 128) :
    apply ⟨.zeroExtend, indices⟩ [Bits.datum ⟨w, x⟩] (.bitVec v) =
      .ok (Bits.datum ⟨v, (x.zeroExtend _).cast width⟩) := by
  have le : w.toNat ≤ v.toNat := by omega
  refine congrArg Except.ok ((ofBits_eq_datum _ narrow').trans ?_)
  refine congrArg (fun z => Bits.datum ⟨v, z⟩) (BitVec.eq_of_toNat_eq ?_)
  rw [BitVec.setWidth_setWidth_of_le x (toNat_le_of_narrow narrow'),
    BitVec.toNat_setWidth_of_le le, BitVec.toNat_cast,
    BitVec.zeroExtend, BitVec.toNat_setWidth_of_le (by omega)]

end Datum

theorem exists_of_commonWidth {op : Op} {xs : List Bits} {w : UInt64}
    (common : op.commonWidth (xs.map fun x => .bitVec x.width) = .ok w) :
    ∃ ys : List (BitVec w.toNat), xs = ys.map (Bits.mk w) := by
  have widths := Op.words_of_commonWidth common
  clear common
  induction xs with
  | nil => exact ⟨[], rfl⟩
  | cons x xs ih =>
    obtain ⟨first, rest⟩ := List.forall_mem_cons.mp widths
    obtain ⟨v, y⟩ := x
    obtain rfl := LogicSort.bitVec.inj first
    obtain ⟨ys, rfl⟩ := ih rest
    exact ⟨y :: ys, rfl⟩

theorem Bits.total_eq_sum (xs : List Bits) :
    total xs = ((xs.map Bits.width).map UInt64.toNat).sum := by
  induction xs with
  | nil => rfl
  | cons x xs ih => rw [total, ih, List.map_cons, List.map_cons, List.sum_cons]

theorem Bits.le_total {xs : List Bits} {a : Bits} (ha : a ∈ xs) : a.width.toNat ≤ total xs := by
  rw [total_eq_sum]
  exact List.le_sum_of_mem (List.mem_map_of_mem (List.mem_map_of_mem ha))

theorem Bits.lt_total {xs : List Bits} (many : 2 ≤ xs.length) (positive : ∀ a ∈ xs, 0 < a.width) :
    ∀ a ∈ xs, a.width.toNat < total xs := by
  obtain ⟨x, y, rest, rfl⟩ : ∃ x y rest, xs = x :: y :: rest := by
    match xs, many with
    | x :: y :: rest, _ => exact ⟨x, y, rest, rfl⟩
  obtain ⟨first, others⟩ := List.forall_mem_cons.mp positive
  have first : 0 < x.width.toNat := UInt64.lt_iff_toNat_lt.mp first
  have second : 0 < y.width.toNat := UInt64.lt_iff_toNat_lt.mp (others y List.mem_cons_self)
  refine List.forall_mem_cons.mpr ⟨?_, fun a ha => ?_⟩
  · have := le_total (List.mem_cons_self (a := y) (l := rest))
    rw [total]
    omega
  · have := le_total ha
    rw [total]
    omega

theorem total_of_measures {xs : List Bits} {w : UInt64}
    (measures : Measures ⟨.concat, .none⟩ (xs.map fun x => .bitVec x.width) w.toNat) :
    Bits.total xs = w.toNat := by
  generalize size : w.toNat = n at measures
  cases measures with
  | @concat _ widths sorts many =>
    have same : xs.map Bits.width = widths := by
      refine List.map_injective_iff.mpr (fun _ _ h => LogicSort.bitVec.inj h) ?_
      rw [List.map_map]
      exact sorts
    rw [Bits.total_eq_sum, same]

namespace Standard

open Datum

variable {op : Op} {xs : List Bits} {sort : LogicSort} {x : Datum}

/-- What the engine gives is what the operator means. -/
theorem apply_eq (standard : Standard op xs sort x) (narrow : ∀ a ∈ xs, 0 < a.width ∧ a.width ≤ 128)
    (many : op.prim = .concat → 2 ≤ xs.length) (narrow' : ∀ w, sort = .bitVec w → w ≤ 128) :
    Datum.apply op (xs.map Bits.datum) sort = .ok x := by
  cases standard with
  | @one prim w f means x =>
    have small := narrow' w rfl
    obtain ⟨g, wide⟩ := PrimOp.exists_onOne means 128
    refine (apply_one wide ⟨w, x⟩).trans (congrArg Except.ok ?_)
    rw [ofBits_eq_datum _ small, PrimOp.setWidth_onOne (toNat_le_of_narrow small) wide means,
      setWidth_setWidth_self x small]
  | @many prim w f means x rest =>
    have small := narrow' w rfl
    obtain ⟨g, wide⟩ := PrimOp.exists_onTwo means 128
    rw [apply_many wide, foldBits_datum, ofBits_eq_datum _ small,
      setWidth_foldl (PrimOp.setWidth_onTwo (toNat_le_of_narrow small) wide means) small,
      setWidth_setWidth_self x small]
  | compare means x y => exact apply_compare means (narrow _ List.mem_cons_self).2 x y
  | concat width =>
    have small := narrow' _ rfl
    refine apply_concat width small fun a ha => ?_
    refine (Bits.lt_total (many rfl) (fun a ha => (narrow a ha).1) a ha).trans_le ?_
    exact width ▸ toNat_le_of_narrow small
  | extract x below ordered width =>
    have small := (narrow _ List.mem_cons_self).2
    have low := UInt64.lt_iff_toNat_lt.mp (UInt64.lt_of_le_of_lt ordered below)
    exact apply_extract x (low.trans_le (toNat_le_of_narrow small)) width small (narrow' _ rfl)
  | zeroExtend x width => exact apply_zeroExtend x width (narrow' _ rfl)

theorem of_resultSort (tag : op.prim.isOnBits = true)
    (result : op.resultSort (xs.map fun x => .bitVec x.width) = .ok (some sort)) :
    ∃ x, Standard op xs sort x := by
  obtain ⟨formed, -, given⟩ := Op.resultSort_eq_ok_iff.mp result
  have arity := Op.arity_of_resultSort result
  rw [List.length_map] at arity
  obtain ⟨prim, indices⟩ := op
  cases prim with
  | bvNot | bvNeg =>
    obtain rfl := Op.indices_of_none formed rfl
    obtain ⟨⟨w, x⟩, rfl⟩ := List.length_eq_one_iff.mp (Arity.eq_of_admits_exactly arity)
    cases given
    exact ⟨_, .one rfl x⟩
  | bvAnd | bvOr | bvXor | bvAdd | bvSub | bvMul =>
    obtain rfl := Op.indices_of_none formed rfl
    obtain ⟨w, common, same⟩ := ok_of_map given
    cases same
    obtain ⟨ys, rfl⟩ := exists_of_commonWidth common
    cases ys with
    | nil => cases Arity.le_of_admits_atLeast arity
    | cons y ys => exact ⟨_, .many rfl y ys⟩
  | bvUlt | bvUle | bvUgt | bvUge | bvSlt | bvSle =>
    obtain rfl := Op.indices_of_none formed rfl
    obtain ⟨⟨⟩, common, same⟩ := ok_of_bind given
    cases same
    obtain ⟨w, common, -⟩ := ok_of_map common
    obtain ⟨ys, rfl⟩ := exists_of_commonWidth common
    rw [List.length_map] at arity
    obtain ⟨y, z, rfl⟩ := List.length_eq_two.mp (Arity.eq_of_admits_exactly arity)
    exact ⟨_, .compare rfl y z⟩
  | concat =>
    obtain ⟨w, same, measures⟩ := Op.measures_of_resultSort rfl result
    cases same
    obtain rfl := Op.indices_of_none formed rfl
    exact ⟨_, .concat (total_of_measures measures)⟩
  | extract =>
    obtain ⟨v, same, measures⟩ := Op.measures_of_resultSort rfl result
    cases same
    obtain ⟨⟨w, x⟩, rfl⟩ := List.length_eq_one_iff.mp (Arity.eq_of_admits_exactly arity)
    obtain ⟨high, low, rfl⟩ := Op.indices_of_two formed rfl
    generalize width : v.toNat = n at measures
    cases measures with
    | extract below ordered => exact ⟨_, .extract x below ordered width.symm⟩
  | zeroExtend =>
    obtain ⟨v, same, measures⟩ := Op.measures_of_resultSort rfl result
    cases same
    obtain ⟨⟨w, x⟩, rfl⟩ := List.length_eq_one_iff.mp (Arity.eq_of_admits_exactly arity)
    obtain ⟨i, rfl⟩ := Op.indices_of_one formed rfl
    generalize width : v.toNat = n at measures
    cases measures with
    | extend => exact ⟨_, .zeroExtend x width.symm⟩
  | _ => cases tag

end Standard

variable {op : Op} {sorts : List LogicSort} {args : List Datum} {sort : LogicSort}

theorem exists_bits_of_narrow {x : Datum} (narrow : IsNarrow sort x) :
    ∃ a : Bits, sort = .bitVec a.width ∧ x = a.datum ∧ a.width ≤ 128 := by
  obtain ⟨w, bits, rfl, rfl, -, le, below⟩ := narrow
  have masked := (and_mask_eq_self_iff bits le).mpr below
  exact ⟨⟨w, bits.setWidth w.toNat⟩, rfl,
    congrArg (Datum.bitVec w) (masked.symm.trans (and_mask bits le)), le⟩

theorem exists_bits_of_fill (fill : List.Forall₂ IsNarrow sorts args) :
    ∃ xs : List Bits, sorts = xs.map (fun a => .bitVec a.width) ∧ args = xs.map Bits.datum ∧
      ∀ a ∈ xs, a.width ≤ 128 := by
  induction fill with
  | nil => exact ⟨[], rfl, rfl, fun a ha => absurd ha List.not_mem_nil⟩
  | cons first _ ih =>
    obtain ⟨a, rfl, rfl, le⟩ := exists_bits_of_narrow first
    obtain ⟨xs, rfl, rfl, les⟩ := ih
    exact ⟨a :: xs, rfl, rfl, List.forall_mem_cons.mpr ⟨le, les⟩⟩

theorem holds_of_narrow {x : Datum} (narrow : IsNarrow sort x) : sort.Holds x := by
  obtain ⟨w, bits, rfl, rfl, -, le, below⟩ := narrow
  exact ⟨rfl, (and_mask_eq_self_iff bits le).mpr below⟩

namespace Datum

/-- An operator on bit-vectors whose widths fit into a word, as that of its result does, has a
standard meaning at them; that is what the engine gives, and it is below the power of two of its
width. -/
theorem apply_standard (tag : op.prim.isOnBits = true) (fill : List.Forall₂ IsNarrow sorts args)
    (result : op.resultSort sorts = .ok (some sort)) (narrow : ∀ w, sort = .bitVec w → w ≤ 128) :
    (∃ xs x, args = xs.map Bits.datum ∧ Standard op xs sort x) ∧
      ∀ xs x, args = xs.map Bits.datum → Standard op xs sort x →
        apply op args sort = .ok x ∧ sort.Holds x ∧
        ∀ w bits, x = .bitVec w bits → sort = .bitVec w ∧ bits.toNat < 2 ^ w.toNat := by
  constructor
  · obtain ⟨xs, rfl, rfl, -⟩ := exists_bits_of_fill fill
    obtain ⟨x, standard⟩ := Standard.of_resultSort tag result
    exact ⟨xs, x, rfl, standard⟩
  rintro xs x rfl standard
  have bounds : ∀ a ∈ xs, 0 < a.width ∧ a.width ≤ 128 := by
    intro a ha
    obtain ⟨s, -, w, bits, -, same, positive, le, -⟩ :=
      exists_of_forall₂ fill (List.mem_map_of_mem ha)
    exact (Datum.bitVec.inj same).1 ▸ ⟨positive, le⟩
  have many : op.prim = .concat → 2 ≤ xs.length := by
    intro prim
    have arity := Op.arity_of_resultSort result
    rw [prim, fill.length_eq, List.length_map] at arity
    exact Arity.le_of_admits_atLeast arity
  have applied := standard.apply_eq bounds many narrow
  have holds := holds_apply (fill.imp fun _ _ => holds_of_narrow) result applied
  refine ⟨applied, holds, fun w bits same => ?_⟩
  obtain rfl := same
  cases sort with
  | bitVec v =>
    obtain ⟨rfl, masked⟩ := holds
    exact ⟨rfl, (and_mask_eq_self_iff bits (narrow w rfl)).mp masked⟩
  | _ => cases holds

/-- The two bits `10` above the three bits `110`. -/
theorem apply_standard_concat :
    Datum.apply ⟨.concat, .none⟩ [.bitVec 2 2, .bitVec 3 6] (.bitVec 5) = .ok (.bitVec 5 22) := by
  have fill : List.Forall₂ IsNarrow [.bitVec 2, .bitVec 3] [.bitVec 2 2, .bitVec 3 6] :=
    .cons ⟨2, 2, rfl, rfl, by decide, by decide, by decide⟩
      (.cons ⟨3, 6, rfl, rfl, by decide, by decide, by decide⟩ .nil)
  have result : Op.resultSort ⟨.concat, .none⟩ [.bitVec 2, .bitVec 3] =
    .ok (some (.bitVec 5)) := rfl
  have means := (apply_standard rfl fill result fun w h => by cases h; decide).2
  exact (means [⟨2, 2⟩, ⟨3, 6⟩] _ rfl (.concat rfl)).1

/-- In two's complement, the four bits `1000` come before `0111`. -/
example : Datum.apply ⟨.bvSlt, .none⟩ [.bitVec 4 8, .bitVec 4 7] .bool = .ok (.bool true) := rfl

end Datum

end FormulaGraph
