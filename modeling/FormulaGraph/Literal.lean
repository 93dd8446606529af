import FormulaGraph.LogicSort

/-!
Literals: the values a formula can spell out.

Integers and the two components of a fraction have 128 bits and a sign, bit-vectors are kept in a
word of 128 bits. `ofBits` truncates to the width; a literal written with more bits than its width
is possible and stays as it is. Reading literals is the matter of `FormulaGraph.Literal.Parse`,
bringing fractions to lowest terms that of `FormulaGraph.Literal.Normal`.
-/

namespace FormulaGraph

/-- An integer of 128 bits, sign included. -/
structure Int128 where
  val : Int
  lower : -(1 <<< 127) ≤ val
  upper : val < 1 <<< 127
  deriving DecidableEq

namespace Int128

def ofInt? (n : Int) : Option Int128 :=
  if h : -(1 <<< 127) ≤ n ∧ n < 1 <<< 127 then some ⟨n, h.1, h.2⟩ else none

instance : Hashable Int128 := ⟨fun n => hash n.val⟩

instance : OfNat Int128 0 := ⟨⟨0, by decide, by decide⟩⟩

instance : OfNat Int128 1 := ⟨⟨1, by decide, by decide⟩⟩

def ofInt64 (i : Int64) : Int128 :=
  ⟨i.toInt, by have := i.le_toInt; omega, by have := i.toInt_lt; omega⟩

theorem ofInt?_eq_some_iff {n : Int} {i : Int128} : ofInt? n = some i ↔ i.val = n := by
  unfold ofInt?
  constructor
  · intro h
    split at h
    · cases h; rfl
    · simp at h
  · rintro rfl
    rw [dif_pos ⟨i.lower, i.upper⟩]

end Int128

/-- The word in which the bits of a bit-vector are kept. -/
abbrev Word := BitVec 128

/-- The word whose lowest `width` bits are set; from 128 on, all of them. -/
def mask (width : UInt64) : Word :=
  if 128 ≤ width then BitVec.allOnes 128 else (BitVec.allOnes width.toNat).setWidth 128

theorem and_mask_of_le {width : UInt64} (bits : Word) (wide : 128 ≤ width) :
    bits &&& mask width = bits := by
  rw [mask, if_pos wide, BitVec.and_allOnes]

/-- What a mask leaves of a word is its remainder modulo a power of two. -/
theorem toNat_and_mask {width : UInt64} (bits : Word) (narrow : width ≤ 128) :
    (bits &&& mask width).toNat = bits.toNat % 1 <<< width.toNat := by
  rw [Nat.one_shiftLeft]
  have narrow : width.toNat ≤ 128 := UInt64.le_iff_toNat_le.mp narrow
  by_cases wide : 128 ≤ width
  · have whole : width.toNat = 128 := by
      have : 128 ≤ width.toNat := UInt64.le_iff_toNat_le.mp wide
      omega
    rw [and_mask_of_le bits wide, whole, Nat.mod_eq_of_lt bits.isLt]
  · rw [mask, if_neg wide, BitVec.toNat_and, BitVec.toNat_setWidth, BitVec.toNat_allOnes,
      Nat.mod_eq_of_lt, Nat.and_two_pow_sub_one_eq_mod]
    have : 2 ^ width.toNat ≤ 2 ^ 128 := Nat.pow_le_pow_right (by decide) narrow
    omega

inductive Literal where
  | bool (b : Bool)
  | int (n : Int128)
  | real (numer denom : Int128)
  | bitVec (width : UInt64) (bits : Word)
  /-- A value of an engine that has no portable form, by its text. -/
  | other (text : String)
  deriving DecidableEq, Hashable

namespace Literal

instance : Inhabited Literal := ⟨.bool false⟩

/-- The bit-vector literal of this width, its bits truncated to it. -/
def ofBits (width : UInt64) (bits : Word) : Literal :=
  .bitVec width (bits &&& mask width)

/-- A negative number is written as an application of minus. -/
def signedText (n : Int) : String :=
  if n < 0 then s!"(- {n.natAbs})" else toString n

/-- The binary digits of `n`, highest first: at least one, and at least `width`. -/
def binaryText (width n : Nat) : String :=
  String.ofList ((List.range (max width (n.log2 + 1))).reverse.map fun i =>
    if n.testBit i then '1' else '0')

def text : Literal → String
  | .bool b => toString b
  | .int n => signedText n.val
  | .real p q => s!"(/ {signedText p.val} {q.val})"
  | .bitVec w bits => "#b" ++ binaryText w.toNat bits.toNat
  | .other t => t

instance : ToString Literal := ⟨text⟩

def asBool? : Literal → Option Bool
  | .bool b => some b
  | _ => none

def asBits? : Literal → Option Word
  | .bitVec _ bits => some bits
  | _ => none

/-- Whether the literal can stand for a value of the sort. Integers count as reals, and a value
without a portable form may have any sort. -/
def fits : Literal → LogicSort → Bool
  | .bool _, .bool | .int _, .int | .int _, .real | .real _ _, .real => true
  | .bitVec w _, .bitVec v => w = v
  | .other _, _ => true
  | _, _ => false

end Literal

end FormulaGraph
