import FormulaGraph.Proofs.Literal.Printed
import FormulaGraph.Proofs.Solver.AdmittedSorts
import FormulaGraph.Proofs.Solver.EqualLiterals

/-!
Literals of integers, made from the integer or read from a numeral for it. At a sort of bit-vectors
both keep the residue modulo the power of two of the width, as far as a word of 128 bits reaches: a
negative integer does not wrap around at a greater width. Reading the decimal text of an integer is
the same request as making its literal, and what is written of a literal is read as that literal.
-/

namespace FormulaGraph

/-- A residue of 128 bits is the residue of a greater width too, unless the integer is negative. -/
theorem emod_two_pow_min_eq_iff {n : Int} (fits : n.natAbs < 2 ^ 128) (w : UInt64) :
    n % 2 ^ min w.toNat 128 = n % 2 ^ w.toNat ↔ w ≤ 128 ∨ 0 ≤ n := by
  by_cases narrow : w ≤ 128
  · have small : w.toNat ≤ 128 := UInt64.le_iff_toNat_le.mp narrow
    rw [Nat.min_eq_left small]
    exact iff_of_true rfl (.inl narrow)
  · have wide : 128 < w.toNat := UInt64.lt_iff_toNat_lt.mp (UInt64.not_le.mp narrow)
    have greater : (2 : Int) ^ 128 < 2 ^ w.toNat := pow_lt_pow_right₀ (by decide) wide
    rw [Nat.min_eq_right wide.le, or_iff_right narrow]
    constructor
    · intro same
      by_contra negative
      have lower : n % 2 ^ 128 = n + 2 ^ 128 := by
        rw [← Int.add_emod_right, Int.emod_eq_of_lt (by omega) (by omega)]
      have upper : n % 2 ^ w.toNat = n + 2 ^ w.toNat := by
        rw [← Int.add_emod_right, Int.emod_eq_of_lt (by omega) (by omega)]
      omega
    · intro nonneg
      rw [Int.emod_eq_of_lt nonneg (by omega), Int.emod_eq_of_lt nonneg (by omega)]

theorem natAbs_toInt_lt (i : Int64) : i.toInt.natAbs < 2 ^ 128 := by
  have lower := i.le_toInt
  have upper := i.toInt_lt
  omega

namespace Solver

open FormulaGraph.Action Numeral

section Wrapping

variable {σ S T : Type} [BEq T] [Hashable T] [Engine σ S T]
    {s s' s₁ s₂ s₃ : Solver σ S T} {t t' : Term}
  {issued : List Term} {w : UInt64} {i : Int64} {sort : LogicSort}

theorem kind_of_makeValue_bits [EquivBEq T] [LawfulHashable T]
    (run : Run (fun _ : σ => True) s issued)
    {bits : Word} (made : makeValue (.bitVec w bits) (.bitVec w) s = .ok t s') :
    t.kind = .value (.bitVec w bits) := by
  have honoured := Contract.free_honoured (σ := σ) (S := S) (T := T)
  obtain ⟨-, -, -, ⟨l, normal, kind⟩, -⟩ :=
    (keeps_literal honoured (run.coherent honoured).1 _ _).answer made
  cases normal
  exact kind

/-- Integers wrap around as bit-vectors of up to 128 bits, and so they do at every width unless they
are negative: of a negative integer no more than 128 bits are ever set. -/
theorem integers_wrap [EquivBEq T] [LawfulHashable T]
    (run : Run (fun _ : σ => True) s issued) (w : UInt64) :
    (∀ i : Int64, ∃ bits : Word,
      (makeInt i (.bitVec w) : Action (Solver σ S T) Term) =
        makeValue (.bitVec w bits) (.bitVec w) ∧
        (∀ t s', makeInt i (.bitVec w) s = .ok t s' → t.kind = .value (.bitVec w bits)) ∧
        (bits.toNat : Int) = i.toInt % 2 ^ min w.toNat 128 ∧
        ((bits.toNat : Int) = i.toInt % 2 ^ w.toNat ↔ w ≤ 128 ∨ 0 ≤ i.toInt)) ∧
    (∀ repr base l, Literal.parse repr (.bitVec w) base = .ok l → ∃ front n, ∃ bits : Word,
      Spells base front repr.toList n ∧ l = .bitVec w bits ∧
        (bits.toNat : Int) = n % 2 ^ min w.toNat 128 ∧
        ((bits.toNat : Int) = n % 2 ^ w.toNat ↔ w ≤ 128 ∨ 0 ≤ n)) := by
  constructor
  · intro i
    refine ⟨_, rfl, fun t s' made =>
      kind_of_makeValue_bits run made, Literal.toNat_ofInt_and_mask w _, ?_⟩
    rw [Literal.toNat_ofInt_and_mask]
    exact emod_two_pow_min_eq_iff (natAbs_toInt_lt i) w
  · intro repr base l read
    obtain ⟨-, front, n, spells, fits, rfl⟩ := Literal.parse_bitVec_eq_ok_iff.mp read
    refine ⟨front, n, _, spells, rfl, Literal.toNat_ofInt_and_mask w n, ?_⟩
    rw [Literal.toNat_ofInt_and_mask]
    exact emod_two_pow_min_eq_iff fits w

theorem parseValue_toString (i : Int64) (integral : sort = .int ∨ ∃ w, sort = .bitVec w) :
    (parseValue (toString i.toInt) sort 10 : Action (Solver σ S T) Term) = makeInt i sort := by
  obtain rfl | ⟨w, rfl⟩ := integral
  · have read : Literal.parse (toString i.toInt) .int 10 = .ok (.int (.ofInt64 i)) :=
      Literal.parse_toString_int (.ofInt64 i)
    rw [parseValue, read]
    rfl
  · have read : Literal.parse (toString i.toInt) (.bitVec w) 10 =
        .ok (.ofBits w (BitVec.ofInt 128 i.toInt)) :=
      Literal.parse_toString_bitVec (natAbs_toInt_lt i)
    rw [parseValue, read]
    rfl

theorem makeInt_eq_makeValue (i : Int64) (integral : sort = .int ∨ ∃ w, sort = .bitVec w) :
    ∃ l : Literal, (makeInt i sort : Action (Solver σ S T) Term) = makeValue l sort ∧
      l.fits sort = true ∧ l.normalize sort = .ok l := by
  obtain rfl | ⟨w, rfl⟩ := integral
  · exact ⟨.int (.ofInt64 i), rfl, rfl, rfl⟩
  · exact ⟨.ofBits w (BitVec.ofInt 128 i.toInt), rfl, decide_eq_true rfl, rfl⟩

theorem makeValue_again [EquivBEq T] [LawfulHashable T]
    (run : Run (fun _ : σ => True) s issued) {l : Literal}
    (made : makeValue l sort s = .ok t s₁) (between : Continues s₁ s₂)
    (made' : makeValue l sort s₂ = .ok t' s₃) : t' = t := by
  have honoured := Contract.free_honoured (σ := σ) (S := S) (T := T)
  obtain ⟨kept, has, sorted, ⟨n, normal, kind⟩, -⟩ :=
    (keeps_literal honoured (run.coherent honoured).1 l sort).answer made
  obtain ⟨coherent, extension⟩ := between.coherent honoured kept.coherent
  obtain ⟨kept', has', sorted', ⟨n', normal', kind'⟩, -⟩ :=
    (keeps_literal honoured coherent l sort).answer made'
  cases normal.symm.trans normal'
  exact kept'.coherent.canonical.toInterned.eq_of_value has'
    (kept'.extension.has t (extension.has t has))
    (sorted'.trans sorted.symm) kind' kind

end Wrapping

theorem makeInt_succeeds {sort : LogicSort} (i : Int64)
    (integral : sort = .int ∨ ∃ w, sort = .bitVec w)
    (e : Solver Enumerator LogicSort Handle) : Succeeds (makeInt i sort) e fun _ _ => True := by
  obtain ⟨l, makes, fits, normal⟩ :=
    makeInt_eq_makeValue (σ := Enumerator) (S := LogicSort) (T := Handle) i integral
  have admits : e.Admits sort := by
    obtain rfl | ⟨w, rfl⟩ := integral
    · exact .int
    · exact .bitVec w
  rw [makes, makeValue_succeeds_iff fits normal]
  exact admits.nativeSort .refl

section Reading

variable {σ S T : Type} [BEq T] [Hashable T] [Engine σ S T] {s : Solver σ S T} {issued : List Term}

/-- What is written of a literal is read as the literal: a bit-vector of positive width from as many
binary digits, an integer that is not negative from its decimal text. And the decimal text of any
integer of 64 bits is read as the node that is made of the integer. -/
theorem literals_read_back [EquivBEq T] [LawfulHashable T]
    (run : Run (fun _ : σ => True) s issued) :
    (∀ (w : UInt64) (x : Word), 1 ≤ w → ∃ ds : List Char,
      (Literal.ofBits w x).text = "#b" ++ String.ofList ds ∧ ds.length = w.toNat ∧
        (∀ c ∈ ds, c = '0' ∨ c = '1') ∧
        Literal.parse (String.ofList ds) (.bitVec w) 2 = .ok (.ofBits w x)) ∧
    (∀ n : Int128, 0 ≤ n.val → Literal.parse (Literal.int n).text .int 10 = .ok (.int n)) ∧
    (∀ (i : Int64) (sort : LogicSort), (sort = .int ∨ ∃ w, sort = .bitVec w) →
      (parseValue (toString i.toInt) sort 10 : Action (Solver σ S T) Term) = makeInt i sort ∧
        (∀ t s₁ s₂ t' s₃, makeInt i sort s = .ok t s₁ → Continues s₁ s₂ →
          parseValue (toString i.toInt) sort 10 s₂ = .ok t' s₃ → t' = t) ∧
        ∀ e : Solver Enumerator LogicSort Handle,
          Succeeds (parseValue (toString i.toInt) sort 10) e fun _ _ => True) := by
  refine ⟨fun w x positive => ?_, fun n nonneg => ?_, fun i sort integral => ⟨?_, ?_, fun e => ?_⟩⟩
  · obtain ⟨written, read⟩ := Literal.text_ofBits positive x
    exact ⟨_, written, Literal.length_binaryDigits, fun c => Literal.bit_of_mem_binaryDigits, read⟩
  · rw [Literal.text_int nonneg]
    exact Literal.parse_toString_int n
  · exact parseValue_toString i integral
  · intro t s₁ s₂ t' s₃ made between read
    obtain ⟨l, makes, -⟩ := makeInt_eq_makeValue (σ := σ) (S := S) (T := T) i integral
    rw [makes] at made
    rw [parseValue_toString i integral, makes] at read
    exact makeValue_again run made between read
  · rw [parseValue_toString i integral]
    exact makeInt_succeeds i integral e

end Reading

section MinusOne

theorem run_new :
    Run (fun _ => True) (new (Enumerator.new "m") {} : Solver Enumerator LogicSort Handle) [] :=
  .new trivial {}

/-- Minus one has all eight bits set, made or read. -/
theorem integers_wrap_minus_one :
    ∃ (s s' : Solver Enumerator LogicSort Handle) (t : Term) (bits bits' : Word),
    Run (fun _ => True) s [] ∧ makeInt (-1) (.bitVec 8) s = .ok t s' ∧
      t.kind = .value (.bitVec 8 bits) ∧
      (bits.toNat : Int) = -1 % 2 ^ 8 ∧ Literal.parse "-1" (.bitVec 8) 10 = .ok (.bitVec 8 bits') ∧
        (bits'.toNat : Int) = -1 % 2 ^ 8 := by
  obtain ⟨t, s', made, -⟩ := makeInt_succeeds (-1) (.inr ⟨8, rfl⟩) (new (Enumerator.new "m") {})
  obtain ⟨integers, numerals⟩ := integers_wrap run_new 8
  obtain ⟨bits, -, kind, -, wraps⟩ := integers (-1)
  have read : Literal.parse "-1" (.bitVec 8) 10 = .ok (.bitVec 8 255) := rfl
  obtain ⟨front, n, bits', -, same, reached, -⟩ := numerals "-1" 10 _ read
  cases same
  exact ⟨_, s', t, bits, _, run_new, made, kind t s' made, wraps.mpr (.inl (by decide)), read, rfl⟩

/-- Of 129 bits minus one has the highest one unset, made or read. -/
theorem minus_one_unwrapped :
    ∃ (s s' : Solver Enumerator LogicSort Handle) (t : Term) (bits : Word),
    Run (fun _ => True) s [] ∧ makeInt (-1) (.bitVec 129) s = .ok t s' ∧
      t.kind = .value (.bitVec 129 bits) ∧
      Literal.parse "-1" (.bitVec 129) 10 = .ok (.bitVec 129 bits) ∧
        (bits.toNat : Int) ≠ -1 % 2 ^ 129 := by
  obtain ⟨t, s', made, -⟩ := makeInt_succeeds (-1) (.inr ⟨129, rfl⟩) (new (Enumerator.new "m") {})
  exact ⟨_, s', t, _, run_new, made, kind_of_makeValue_bits run_new made, rfl, by decide⟩

/-- Minus five is read from its decimal text as the node that is made of it, and from the four bits
that are written of it. -/
theorem literals_read_back_minus_five : ∃ (s s₁ s₂ : Solver Enumerator LogicSort Handle) (t : Term),
    Run (fun _ => True) s [] ∧ makeInt (-5) (.bitVec 4) s = .ok t s₁ ∧
      parseValue "-5" (.bitVec 4) 10 s₁ = .ok t s₂ ∧
      (∃ ds : List Char, (Literal.ofBits 4 11).text = "#b" ++ String.ofList ds ∧
        Literal.parse (String.ofList ds) (.bitVec 4) 2 = .ok (.ofBits 4 11)) ∧
      ∃ n : Int128, n.val = 5 ∧ Literal.parse (Literal.int n).text .int 10 = .ok (.int n) := by
  obtain ⟨bits, integers, decimals⟩ := literals_read_back run_new
  obtain ⟨-, same, reads⟩ := decimals (-5) (.bitVec 4) (.inr ⟨4, rfl⟩)
  obtain ⟨t, s₁, made, -⟩ := makeInt_succeeds (-5) (.inr ⟨4, rfl⟩) (new (Enumerator.new "m") {})
  obtain ⟨t', s₂, read, -⟩ := reads s₁
  obtain ⟨ds, written, -, -, again⟩ := bits 4 11 (by decide)
  cases same t s₁ s₁ t' s₂ made .rest read
  exact ⟨_, s₁, s₂, t, run_new, made, read, ⟨ds, written, again⟩, ⟨5, by decide, by decide⟩, rfl,
    integers _ (by decide)⟩

end MinusOne

end Solver

end FormulaGraph
