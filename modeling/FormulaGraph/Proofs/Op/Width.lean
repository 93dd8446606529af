import FormulaGraph.Proofs.Op.Guarded
import Mathlib.Algebra.GroupWithZero.Nat

/-!
The widths that operators give. Where an operator makes a bit-vector of a width of its own, that
width is the sum, the product or the difference of numbers that it stands for; if no word is that
large, or if indices lie outside their argument, the request is refused.
-/

namespace FormulaGraph

/-- The tags with a width of their own. -/
def PrimOp.isMeasured : PrimOp → Bool
  | .concat | .extract | .zeroExtend | .signExtend | .replicate | .intToBv => true
  | _ => false

/-- The width of what the operator makes of arguments of these sorts, as a number. -/
inductive Measures : Op → List LogicSort → Nat → Prop
  | concat {args : List LogicSort} {widths : List UInt64} (sorts : args = widths.map .bitVec)
      (many : 2 ≤ widths.length) : Measures ⟨.concat, .none⟩ args (widths.map UInt64.toNat).sum
  | extract {w high low : UInt64} (below : high < w) (ordered : low ≤ high) :
      Measures (.extract high low) [.bitVec w] (high.toNat - low.toNat + 1)
  | extend {prim : PrimOp} (tag : prim = .zeroExtend ∨ prim = .signExtend) {w i : UInt64} :
      Measures ⟨prim, .one i⟩ [.bitVec w] (w.toNat + i.toNat)
  | repetition {w times : UInt64} (often : times ≠ 0) :
      Measures ⟨.replicate, .one times⟩ [.bitVec w] (w.toNat * times.toNat)
  | ofNumber {w : UInt64} : Measures ⟨.intToBv, .one w⟩ [.int] w.toNat

namespace Op

open LogicSort

variable {op : Op} {args : List LogicSort} {sort : Option LogicSort} {w v start : UInt64} {n : Nat}

theorem resultSort_eq_ok_iff : op.resultSort args = .ok sort ↔ op.isWellFormed = true ∧
    op.prim.arity.admits args.length = true ∧
      op.sortBySignature args op.prim.signature = .ok sort := by
  unfold resultSort
  cases op.isWellFormed with
  | false => exact ⟨fun h => (by cases h), fun h => (by cases h.1)⟩
  | true =>
    cases op.prim.arity.admits args.length with
    | false => exact ⟨fun h => (by cases h), fun h => (by cases h.2.1)⟩
    | true => exact ⟨fun h => ⟨rfl, rfl, h⟩, fun h => h.2.2⟩

theorem add?_of_lt (fits : w.toNat + v.toNat < UInt64.size) :
    Width.add? w v = some (w + v) := if_pos fits

theorem addWidths_ok_iff (start : UInt64) : args.foldlM (fun sum s => do
      let w ← s.expectBitVec
      op.widthOrTooWide (Width.add? sum w)) start = .ok w ↔
    ∃ widths : List UInt64, args = widths.map .bitVec ∧
      start.toNat + (widths.map UInt64.toNat).sum = w.toNat := by
  induction args generalizing start with
  | nil =>
    constructor
    · intro done
      cases done
      exact ⟨[], rfl, rfl⟩
    · rintro ⟨widths, sorts, total⟩
      obtain rfl := List.map_eq_nil_iff.mp sorts.symm
      rw [UInt64.toNat_inj.mp (show start.toNat = w.toNat from total)]
      rfl
  | cons s args ih =>
    rw [List.foldlM_cons]
    constructor
    · intro done
      obtain ⟨sum, added, done⟩ := ok_of_bind done
      obtain ⟨v, width, added⟩ := ok_of_bind added
      obtain ⟨widths, rfl, total⟩ := (ih sum).mp done
      have summed := Width.toNat_of_add? (ok_of_widthOrTooWide added)
      refine ⟨v :: widths, by rw [List.map_cons, eq_of_expectBitVec width], ?_⟩
      rw [List.map_cons, List.sum_cons]
      omega
    · rintro ⟨widths, sorts, total⟩
      cases widths with
      | nil => cases sorts
      | cons v widths =>
        obtain ⟨rfl, rfl⟩ := List.cons.inj sorts
        rw [List.map_cons, List.sum_cons] at total
        have bound : w.toNat < UInt64.size := w.toNat_lt
        have fits : start.toNat + v.toNat < UInt64.size := by omega
        have added : ((LogicSort.bitVec v).expectBitVec >>= fun u =>
            op.widthOrTooWide (Width.add? start u)) = .ok (start + v) :=
          congrArg op.widthOrTooWide (add?_of_lt fits)
        rw [bind_of_ok added]
        refine (ih (start + v)).mpr ⟨widths, rfl, ?_⟩
        rw [Width.toNat_of_add? (add?_of_lt fits)]
        omega

theorem totalWidth_ok_iff : op.totalWidth args = .ok w ↔
    ∃ widths : List UInt64, args = widths.map .bitVec ∧
      (widths.map UInt64.toNat).sum = w.toNat := by
  refine (addWidths_ok_iff 0).trans ?_
  simp only [UInt64.toNat_zero, Nat.zero_add]

theorem toNat_extracted {high low : UInt64} (below : high < w) (ordered : low ≤ high) :
    (high - low + 1).toNat = high.toNat - low.toNat + 1 := by
  have bound : w.toNat < UInt64.size := w.toNat_lt
  have below' : high.toNat < w.toNat := UInt64.lt_iff_toNat_lt.mp below
  rw [UInt64.toNat_add, UInt64.toNat_sub_of_le _ _ ordered, UInt64.toNat_one]
  exact Nat.mod_eq_of_lt (by simp only [UInt64.size] at bound; omega)

theorem indices_of_none {prim : PrimOp} {indices : Indices}
    (formed : (⟨prim, indices⟩ : Op).isWellFormed = true)
    (count : prim.indexCount = 0) : indices = .none := by
  have carried : (⟨prim, indices⟩ : Op).indexCount = prim.indexCount := of_decide_eq_true formed
  rw [count] at carried
  cases indices with
  | none => rfl
  | one | two => cases carried

theorem indices_of_one {prim : PrimOp} {indices : Indices}
    (formed : (⟨prim, indices⟩ : Op).isWellFormed = true)
    (count : prim.indexCount = 1) : ∃ i, indices = .one i := by
  have carried : (⟨prim, indices⟩ : Op).indexCount = prim.indexCount := of_decide_eq_true formed
  rw [count] at carried
  cases indices with
  | one i => exact ⟨i, rfl⟩
  | none | two => cases carried

theorem indices_of_two {prim : PrimOp} {indices : Indices}
    (formed : (⟨prim, indices⟩ : Op).isWellFormed = true)
    (count : prim.indexCount = 2) : ∃ i j, indices = .two i j := by
  have carried : (⟨prim, indices⟩ : Op).indexCount = prim.indexCount := of_decide_eq_true formed
  rw [count] at carried
  cases indices with
  | two i j => exact ⟨i, j, rfl⟩
  | none | one => cases carried

theorem argument_of_exactly_one {prim : PrimOp} (arity : prim.arity = .exactly 1)
    (admitted : prim.arity.admits args.length = true) : ∃ s, args = [s] := by
  rw [arity] at admitted
  obtain ⟨lower, upper⟩ := Bool.and_eq_true_iff.mp admitted
  exact List.length_eq_one_iff.mp
    (Nat.le_antisymm (of_decide_eq_true upper) (of_decide_eq_true lower))

/-- What an operator with a width of its own gives is a bit-vector of that width. -/
theorem measures_of_resultSort (measured : op.prim.isMeasured = true)
    (answered : op.resultSort args = .ok sort) :
    ∃ w, sort = some (.bitVec w) ∧ Measures op args w.toNat := by
  obtain ⟨formed, admitted, given⟩ := resultSort_eq_ok_iff.mp answered
  obtain ⟨prim, indices⟩ := op
  cases prim with
  | concat =>
    obtain rfl := indices_of_none formed rfl
    obtain ⟨w, total, rfl⟩ := ok_of_map given
    obtain ⟨widths, rfl, sum⟩ := totalWidth_ok_iff.mp total
    have many : 2 ≤ (widths.map LogicSort.bitVec).length := Arity.least_le_of_admits admitted
    exact ⟨w, rfl, sum ▸ .concat rfl (by simpa using many)⟩
  | extract =>
    obtain ⟨high, low, rfl⟩ := indices_of_two formed rfl
    obtain ⟨s, rfl⟩ := argument_of_exactly_one rfl admitted
    obtain ⟨t, extracted, rfl⟩ := ok_of_map given
    obtain ⟨w, width, extracted⟩ := ok_of_bind (r := s.expectBitVec) extracted
    obtain rfl := eq_of_expectBitVec width
    by_cases outside : high ≥ w ∨ low > high
    · cases (if_pos outside).symm.trans extracted
    · cases (if_neg outside).symm.trans extracted
      have below : high < w := UInt64.not_le.mp fun h => outside (.inl h)
      have ordered : low ≤ high := UInt64.not_lt.mp fun h => outside (.inr h)
      exact ⟨high - low + 1, rfl, toNat_extracted below ordered ▸ .extract below ordered⟩
  | zeroExtend | signExtend =>
    obtain ⟨i, rfl⟩ := indices_of_one formed rfl
    obtain ⟨s, rfl⟩ := argument_of_exactly_one rfl admitted
    obtain ⟨w, width, extended⟩ := ok_of_bind (r := s.expectBitVec) given
    obtain rfl := eq_of_expectBitVec width
    obtain ⟨v, sum, rfl⟩ := ok_of_map extended
    have total := Width.toNat_of_add? (ok_of_widthOrTooWide sum)
    exact ⟨v, rfl, total ▸ .extend (by simp)⟩
  | replicate =>
    obtain ⟨times, rfl⟩ := indices_of_one formed rfl
    obtain ⟨s, rfl⟩ := argument_of_exactly_one rfl admitted
    obtain ⟨t, repeated, rfl⟩ := ok_of_map given
    obtain ⟨count, carried, repeated⟩ := ok_of_bind repeated
    obtain rfl : times = count := Except.ok.inj carried
    by_cases none : times = 0
    · rw [if_pos none] at repeated
      cases repeated
    · rw [if_neg none] at repeated
      obtain ⟨first, given, repeated⟩ := ok_of_bind repeated
      obtain rfl : s = first := Except.ok.inj given
      obtain ⟨w, width, multiplied⟩ := ok_of_bind repeated
      obtain rfl := eq_of_expectBitVec width
      obtain ⟨v, product, made⟩ := ok_of_bind multiplied
      cases made
      have total := Width.toNat_of_mul? (ok_of_widthOrTooWide product)
      exact ⟨v, rfl, total ▸ .repetition none⟩
  | intToBv =>
    obtain ⟨w, rfl⟩ := indices_of_one formed rfl
    obtain ⟨s, rfl⟩ := argument_of_exactly_one rfl admitted
    obtain ⟨⟨⟩, same, given⟩ := ok_of_bind (r := LogicSort.int.expectSame s) given
    obtain rfl := expectSame_eq_ok_iff.mp same
    cases given
    exact ⟨w, rfl, .ofNumber⟩
  | _ => cases measured

end Op

namespace Measures

open Op

variable {op : Op} {args : List LogicSort} {n m : Nat} {w : UInt64}

theorem isMeasured (measures : Measures op args n) : op.prim.isMeasured = true := by
  cases measures with
  | extend tag => cases tag with | inl h | inr h => rw [h]; rfl
  | concat | extract | repetition | ofNumber => rfl

theorem unique (measures : Measures op args n) (measures' : Measures op args m) : n = m := by
  cases measures with
  | concat sorts =>
    cases measures' with
    | concat sorts' =>
      have same :=
        List.map_injective_iff.mpr (fun _ _ h => LogicSort.bitVec.inj h) (sorts.symm.trans sorts')
      rw [same]
  | extract => cases measures'; rfl
  | extend tag =>
    cases measures' with
    | extend => rfl
    | repetition => simp at tag
  | repetition =>
    cases measures' with
    | repetition => rfl
    | extend tag => simp at tag
  | ofNumber => cases measures'; rfl

theorem answered (measures : Measures op args w.toNat) :
    op.resultSort args = .ok (some (.bitVec w)) := by
  refine resultSort_eq_ok_iff.mpr ?_
  generalize size : w.toNat = n at measures
  have bound : w.toNat < UInt64.size := w.toNat_lt
  cases measures with
  | @concat _ widths sorts many =>
    have count : 2 ≤ args.length := by rw [sorts, List.length_map]; exact many
    have total : Op.totalWidth ⟨.concat, .none⟩ args = .ok w :=
      totalWidth_ok_iff.mpr ⟨widths, sorts, size.symm⟩
    refine ⟨rfl, Bool.and_eq_true_iff.mpr ⟨decide_eq_true count, rfl⟩, ?_⟩
    exact congrArg ((some ∘ LogicSort.bitVec) <$> ·) total
  | @extract v high low below ordered =>
    have same : high - low + 1 = w :=
      UInt64.toNat_inj.mp ((toNat_extracted below ordered).trans size.symm)
    have inside : ¬(high ≥ v ∨ low > high) :=
      not_or.mpr ⟨UInt64.not_le.mpr below, UInt64.not_lt.mpr ordered⟩
    have extracted : (Op.extract high low).extractionSort [.bitVec v] =
        .ok (.bitVec (high - low + 1)) :=
      if_neg inside
    exact ⟨rfl, rfl, same ▸ congrArg (some <$> ·) extracted⟩
  | @extend prim tag v i =>
    have sum : Width.add? v i = some (v + i) := add?_of_lt (by omega)
    have same : v + i = w := UInt64.toNat_inj.mp ((Width.toNat_of_add? sum).trans size.symm)
    rw [same] at sum
    have extended :=
      congrArg (fun o => (some ∘ LogicSort.bitVec) <$> Op.widthOrTooWide ⟨prim, .one i⟩ o) sum
    obtain rfl | rfl := tag <;> exact ⟨rfl, rfl, extended⟩
  | @repetition v times often =>
    have product : Width.mul? v times = some (v * times) := if_pos (by omega)
    have same : v * times = w := UInt64.toNat_inj.mp ((Width.toNat_of_mul? product).trans size.symm)
    rw [same] at product
    have repeated : Op.repetitionSort ⟨.replicate, .one times⟩ [.bitVec v] = .ok (.bitVec w) :=
      (if_neg often).trans <| congrArg
        (fun o => Op.widthOrTooWide ⟨.replicate, .one times⟩ o >>= fun u =>
          pure (LogicSort.bitVec u)) product
    exact ⟨rfl, rfl, congrArg (some <$> ·) repeated⟩
  | @ofNumber v =>
    have same : v = w := UInt64.toNat_inj.mp size.symm
    refine ⟨rfl, rfl, ?_⟩
    show (LogicSort.int.expectSame .int >>= fun _ => pure (some (LogicSort.bitVec v))) = _
    rw [bind_of_ok (LogicSort.expectSame_eq_ok_iff.mpr rfl), same]
    rfl

end Measures

namespace Op

/-- Computing the sort of an application reads no argument and no index that is not given, and no
sum or difference is out of range; if it refuses, it blames the request. Where an operator makes a
bit-vector of a width of its own, its width is the one that is measured; if that is no word, and if
indices lie outside their argument, it refuses. -/
theorem resultSort_exact (op : Op) (args : List LogicSort) :
    (Guarded.resultSort op args).run = .ok (op.resultSort args) ∧
    (∀ e, op.resultSort args = .error e → e.kind = .usage) ∧
    (op.prim.isMeasured = true → ∀ w : UInt64,
      op.resultSort args = .ok (some (.bitVec w)) ↔ Measures op args w.toNat) ∧
    (∀ n, Measures op args n → UInt64.size ≤ n →
      ∃ e, op.resultSort args = .error e ∧ e.kind = .usage) ∧
    ∀ high low w : UInt64, op = .extract high low → args = [.bitVec w] → high ≥ w ∨ low > high →
      ∃ e, op.resultSort args = .error e ∧ e.kind = .usage := by
  have meets := Guarded.meets_resultSort op args
  refine ⟨congrArg ExceptT.run meets.eq, meets.blames, fun measured w =>
    ?_, fun n measures wide => ?_, ?_⟩
  · refine ⟨fun answered => ?_, Measures.answered⟩
    obtain ⟨v, same, measures⟩ := measures_of_resultSort measured answered
    obtain rfl := LogicSort.bitVec.inj (Option.some.inj same)
    exact measures
  · cases result : op.resultSort args with
    | error e => exact ⟨e, rfl, meets.blames e result⟩
    | ok sort =>
      obtain ⟨w, -, measures'⟩ := measures_of_resultSort measures.isMeasured result
      have bound : w.toNat < UInt64.size := w.toNat_lt
      have same := measures.unique measures'
      omega
  · rintro high low w rfl rfl outside
    have refused : (Op.extract high low).extractionSort [.bitVec w] =
        .error (.usage (.extractOutside (.extract high low) (.bitVec w))) := if_pos outside
    exact ⟨_, congrArg (some <$> ·) refused, rfl⟩

/-- Two bits more than the widest word, and the topmost bits of a word of four. -/
theorem resultSort_exact_limits :
    (∃ e, Op.resultSort ⟨.zeroExtend, .one 2⟩ [.bitVec 18446744073709551615] =
      .error e ∧ e.kind = .usage) ∧
    (∃ e, Op.resultSort (.extract 4 2) [.bitVec 4] = .error e ∧ e.kind = .usage) ∧
    Op.resultSort (.extract 3 2) [.bitVec 4] = .ok (some (.bitVec 2)) := by
  refine ⟨?_, ?_, ?_⟩
  · have wide := (resultSort_exact ⟨.zeroExtend, .one 2⟩ [.bitVec 18446744073709551615]).2.2.2.1
    exact wide _ (.extend (.inl rfl)) (by decide)
  · have outside := (resultSort_exact (.extract 4 2) [.bitVec 4]).2.2.2.2
    exact outside 4 2 4 rfl rfl (.inl (by decide))
  · have measured := (resultSort_exact (.extract 3 2) [.bitVec 4]).2.2.1 rfl 2
    exact measured.mpr (.extract (by decide) (by decide))

end Op

end FormulaGraph
