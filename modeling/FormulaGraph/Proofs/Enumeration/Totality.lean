import FormulaGraph.Proofs.Enumeration.Completeness

/-!
What the enumerating engine evaluates: an operator that it knows has a value at all elements of the
sorts of its arguments, unless it would have to shift a word by its width or more. So a node has a
value if it is made of operators that need not, literals of the engine's own and symbols whose sorts
can be counted.
-/

namespace FormulaGraph

theorem Arity.eq_of_admits_exactly {n count : Nat} (admitted : (exactly n).admits count = true) :
    count = n := by
  obtain ⟨lower, upper⟩ := Bool.and_eq_true_iff.mp admitted
  exact Nat.le_antisymm (of_decide_eq_true upper) (of_decide_eq_true lower)

theorem Arity.le_of_admits_atLeast {n count : Nat} (admitted : (atLeast n).admits count = true) :
    n ≤ count :=
  of_decide_eq_true (Bool.and_eq_true_iff.mp admitted).1

/-- The operators that the enumerating engine knows. -/
def PrimOp.isEvaluated : PrimOp → Bool
  | .not | .and | .or | .xor | .implies | .iff | .ite | .equal | .distinct => true
  | .bvNot | .bvNeg | .bvAnd | .bvOr | .bvXor | .bvAdd | .bvSub | .bvMul => true
  | .bvUlt | .bvUle | .bvUgt | .bvUge | .bvSlt | .bvSle => true
  | .concat | .extract | .zeroExtend | .select | .store => true
  | _ => false

/-- The sign of a bit-vector of this width can be moved to the top of a word and back. -/
def UInt64.signFits (width : UInt64) : Bool :=
  width = 0 || 0 < width.toUInt32.toNat && width.toUInt32.toNat ≤ 128

/-- The operator does not shift a word by its width or more, at arguments of these sorts. -/
def Op.shiftsFit (op : Op) (sorts : List LogicSort) : Bool :=
  match op.prim with
  | .concat => sorts.all fun s => (s.width?.getD 0).toNat < 128
  | .extract => ((op.index? 1).getD 0).toNat < 128
  | .bvSlt | .bvSle => sorts.all fun s => UInt64.signFits (s.width?.getD 0)
  | _ => true

namespace Op

open LogicSort

variable {op : Op} {sorts : List LogicSort} {sort : LogicSort} {w : UInt64}

theorem arity_of_resultSort (h : op.resultSort sorts = .ok (some sort)) :
    op.prim.arity.admits sorts.length = true := by
  unfold resultSort at h
  split at h
  · cases h
  · split at h
    · cases h
    · rename_i admitted
      simpa using admitted

theorem bool_of_choice (h : op.sortBySignature sorts .choice = .ok (some sort)) :
    sorts[0]? = some .bool := by
  obtain ⟨s, first, h⟩ := ok_of_bind h
  obtain ⟨⟨⟩, truth, -⟩ := ok_of_bind h
  rw [argument_ok first, expectBool_ok truth]

theorem words_of_commonWidth (h : op.commonWidth sorts = .ok w) : ∀ s ∈ sorts, s = .bitVec w := by
  obtain ⟨s, first, h⟩ := ok_of_bind h
  obtain ⟨v, width, h⟩ := ok_of_bind h
  obtain ⟨⟨⟩, agree, h⟩ := ok_of_bind h
  cases h
  obtain rfl := expectBitVec_ok width
  cases sorts with
  | nil => exact fun s hs => absurd hs List.not_mem_nil
  | cons s' rest =>
    obtain rfl : s' = .bitVec w := by simpa using argument_ok first
    refine List.forall_mem_cons.mpr ⟨rfl, fun s hs => ?_⟩
    exact (expectSame_eq_ok_iff.mp (ok_of_forM agree s hs)).symm

theorem words_of_bitwise (h : op.sortBySignature sorts .bitwise = .ok (some sort)) :
    ∀ s ∈ sorts, ∃ w, s = .bitVec w := by
  obtain ⟨w, common, -⟩ := ok_of_map h
  exact fun s hs => ⟨w, words_of_commonWidth common s hs⟩

theorem words_of_bitOrdering (h : op.sortBySignature sorts .bitOrdering = .ok (some sort)) :
    ∀ s ∈ sorts, ∃ w, s = .bitVec w := by
  obtain ⟨⟨⟩, common, -⟩ := ok_of_bind h
  obtain ⟨w, common, -⟩ := ok_of_map common
  exact fun s hs => ⟨w, words_of_commonWidth common s hs⟩

theorem words_of_concatenation (h : op.sortBySignature sorts .concatenation = .ok (some sort)) :
    ∀ s ∈ sorts, ∃ w, s = .bitVec w := by
  obtain ⟨total, summed, -⟩ := ok_of_map h
  clear h
  unfold totalWidth at summed
  generalize (0 : UInt64) = sum at summed
  induction sorts generalizing sum with
  | nil => exact fun s hs => absurd hs List.not_mem_nil
  | cons s sorts ih =>
    obtain ⟨next, first, rest⟩ := ok_of_bind summed
    obtain ⟨w, width, -⟩ := ok_of_bind first
    exact List.forall_mem_cons.mpr ⟨⟨w, expectBitVec_ok width⟩, ih next rest⟩

theorem word_of_bitUnary (h : op.sortBySignature sorts .bitUnary = .ok (some sort)) :
    ∃ w, sorts[0]? = some (.bitVec w) := by
  obtain ⟨s, first, h⟩ := ok_of_bind h
  obtain ⟨⟨⟩, width, -⟩ := ok_of_bind h
  obtain ⟨w, width, -⟩ := ok_of_map width
  exact ⟨w, expectBitVec_ok width ▸ argument_ok first⟩

theorem word_of_extraction (h : op.sortBySignature sorts .extraction = .ok (some sort)) :
    ∃ w, sorts[0]? = some (.bitVec w) := by
  obtain ⟨result, extracted, -⟩ := ok_of_map h
  obtain ⟨s, first, h⟩ := ok_of_bind extracted
  obtain ⟨w, width, -⟩ := ok_of_bind h
  exact ⟨w, expectBitVec_ok width ▸ argument_ok first⟩

theorem word_of_extension (h : op.sortBySignature sorts .extension = .ok (some sort)) :
    ∃ w, sorts[0]? = some (.bitVec w) := by
  obtain ⟨s, first, h⟩ := ok_of_bind h
  obtain ⟨w, width, -⟩ := ok_of_bind h
  exact ⟨w, expectBitVec_ok width ▸ argument_ok first⟩

theorem index_of_reading (h : op.sortBySignature sorts .reading = .ok (some sort)) :
    ∃ index, sorts[0]? = some (.array index sort) ∧ sorts[1]? = some index := by
  obtain ⟨s, first, h⟩ := ok_of_bind h
  obtain ⟨⟨index, element⟩, array, h⟩ := ok_of_bind h
  obtain ⟨s', second, h⟩ := ok_of_bind h
  obtain ⟨⟨⟩, same, h⟩ := ok_of_bind h
  cases h
  obtain rfl := expectSame_eq_ok_iff.mp same
  exact ⟨index, expectArray_ok array ▸ argument_ok first, argument_ok second⟩

theorem index_of_writing (h : op.sortBySignature sorts .writing = .ok (some sort)) :
    ∃ index element, sorts[0]? = some (.array index element) ∧ sorts[1]? = some index := by
  obtain ⟨s, first, h⟩ := ok_of_bind h
  obtain ⟨⟨index, element⟩, array, h⟩ := ok_of_bind h
  obtain ⟨s', second, h⟩ := ok_of_bind h
  obtain ⟨⟨⟩, same, h⟩ := ok_of_bind h
  obtain rfl := expectSame_eq_ok_iff.mp same
  exact ⟨index, element, expectArray_ok array ▸ argument_ok first, argument_ok second⟩

end Op

namespace Datum

open LogicSort

variable {op : Op} {sorts : List LogicSort} {args : List Datum} {sort index element : LogicSort}
  {x y : Datum} {w : UInt64}

theorem eq_bool_of_holds (holds : LogicSort.bool.Holds x) : ∃ b, x = .bool b := by
  cases x with
  | bool b => exact ⟨b, rfl⟩
  | bitVec | array => cases holds

theorem eq_bitVec_of_holds (holds : (LogicSort.bitVec w).Holds x) :
    ∃ bits, x = .bitVec w bits ∧ bits &&& mask w = bits := by
  cases x with
  | bitVec v bits =>
    obtain ⟨rfl, masked⟩ := holds
    exact ⟨bits, rfl, masked⟩
  | bool | array => cases holds

theorem Fill.bools (fill : Fill sorts args) (truths : ∀ s ∈ sorts, s = .bool) :
    ∃ bs, args.mapM asBool = .ok bs := by
  refine mapM_succeeds fun x hx => ?_
  obtain ⟨s, hs, holds⟩ := exists_of_forall₂ fill hx
  obtain ⟨b, rfl⟩ := eq_bool_of_holds (truths s hs ▸ holds)
  exact ⟨b, rfl⟩

theorem Fill.words (fill : Fill sorts args) (words : ∀ s ∈ sorts, ∃ w, s = .bitVec w) :
    ∃ bits, args.mapM asBits = .ok bits ∧ sorts = bits.map fun b => .bitVec b.1 := by
  induction fill with
  | nil => exact ⟨[], rfl, rfl⟩
  | cons first _ ih =>
    obtain ⟨⟨w, rfl⟩, rest⟩ := List.forall_mem_cons.mp words
    obtain ⟨word, rfl, -⟩ := eq_bitVec_of_holds first
    obtain ⟨bits, read, rfl⟩ := ih rest
    exact ⟨(w, word) :: bits, by rw [List.mapM_cons, read]; rfl, rfl⟩

theorem Fill.one (fill : Fill sorts args) (count : sorts.length = 1) :
    ∃ a s, args = [a] ∧ sorts = [s] ∧ s.Holds a := by
  obtain ⟨s, rfl⟩ := List.length_eq_one_iff.mp count
  cases fill with
  | cons first rest =>
    cases rest
    exact ⟨_, s, rfl, rfl, first⟩

theorem Fill.word (fill : Fill sorts args) (count : sorts.length = 1)
    (first : ∃ w, sorts[0]? = some (.bitVec w)) : ∃ w bits, args = [.bitVec w bits] := by
  obtain ⟨a, s, rfl, rfl, holds⟩ := fill.one count
  obtain ⟨w, first⟩ := first
  cases first
  obtain ⟨bits, rfl, -⟩ := eq_bitVec_of_holds holds
  exact ⟨w, bits, rfl⟩

theorem Fill.two (fill : Fill sorts args) (count : sorts.length = 2) :
    ∃ a b s r, args = [a, b] ∧ sorts = [s, r] ∧ s.Holds a ∧ r.Holds b := by
  obtain ⟨s, r, rfl⟩ := List.length_eq_two.mp count
  cases fill with
  | cons first rest =>
    obtain ⟨b, _, rfl, same, second⟩ := Fill.one rest rfl
    cases same
    exact ⟨_, b, s, r, rfl, rfl, first, second⟩

theorem Fill.three (fill : Fill sorts args) (count : sorts.length = 3) :
    ∃ a b c s r q, args = [a, b, c] ∧ sorts = [s, r, q] ∧ s.Holds a ∧ r.Holds b ∧ q.Holds c := by
  obtain ⟨s, r, q, rfl⟩ := List.length_eq_three.mp count
  cases fill with
  | cons first rest =>
    obtain ⟨b, c, _, _, rfl, same, second, third⟩ := Fill.two rest rfl
    cases same
    exact ⟨_, b, c, s, r, q, rfl, rfl, first, second, third⟩

theorem foldBits_succeeds (f : Word → Word → Word) (width : UInt64) (fill : Fill sorts args)
    (words : ∀ s ∈ sorts, ∃ w, s = .bitVec w) (some' : 0 < sorts.length) :
    ∃ x, foldBits f width args = .ok x := by
  obtain ⟨bits, read, rfl⟩ := fill.words words
  rw [foldBits, bind_of_ok read]
  cases bits with
  | nil => simp at some'
  | cons first rest => exact ⟨_, rfl⟩

theorem compareBits_eq (f : UInt64 × Word → UInt64 × Word → Except Error Bool)
    (fill : Fill sorts args) (words : ∀ s ∈ sorts, ∃ w, s = .bitVec w) (two : sorts.length = 2) :
    ∃ a b, sorts = [.bitVec a.1, .bitVec b.1] ∧ compareBits f args = .bool <$> f a b := by
  obtain ⟨bits, read, rfl⟩ := fill.words words
  rw [List.length_map] at two
  obtain ⟨a, b, rfl⟩ := List.length_eq_two.mp two
  refine ⟨a, b, rfl, ?_⟩
  rw [compareBits, bind_of_ok read]
  rfl

section Shifts

theorem signed_of_fits (fits : UInt64.signFits w = true) (bits : Word) :
    ∃ z, signed w bits = .ok z := by
  unfold signed
  split
  · exact ⟨_, rfl⟩
  · rename_i positive
    have low : 0 < w.toUInt32.toNat ∧ w.toUInt32.toNat ≤ 128 := by
      simpa [UInt64.signFits, positive] using fits
    rw [within_of_lt (by omega), bind_of_ok rfl, within_of_lt (by omega)]
    exact ⟨_, rfl⟩

theorem signed_of_not_fits (unfit : UInt64.signFits w = false) (bits : Word) :
    signed w bits = .error (.internal .overflow) := by
  obtain ⟨positive, unfit⟩ : w ≠ 0 ∧ (0 < w.toUInt32.toNat → 128 < w.toUInt32.toNat) := by
    simpa [UInt64.signFits] using unfit
  rw [signed, if_neg positive]
  by_cases none : w.toUInt32.toNat = 0
  · rw [none]
    rfl
  · rw [within, if_neg (by omega)]
    rfl

theorem signedly_ends (r : Int → Int → Bool) (a b : UInt64 × Word) :
    (∃ c, signedly r a b = .ok c) ∨
      (UInt64.signFits a.1 && UInt64.signFits b.1) = false ∧
        signedly r a b = .error (.internal .overflow) := by
  unfold signedly
  cases first : UInt64.signFits a.1 with
  | false =>
    rw [signed_of_not_fits first]
    exact .inr ⟨rfl, rfl⟩
  | true =>
    obtain ⟨z, valued⟩ := signed_of_fits first a.2
    rw [bind_of_ok valued]
    cases second : UInt64.signFits b.1 with
    | false =>
      rw [signed_of_not_fits second]
      exact .inr ⟨rfl, rfl⟩
    | true =>
      obtain ⟨z', valued'⟩ := signed_of_fits second b.2
      rw [bind_of_ok valued']
      exact .inl ⟨_, rfl⟩

theorem gathered_ends (words : List (UInt64 × Word)) (acc : Word) :
    (∃ x, words.foldlM appendBits acc = .ok x) ∨
      (words.all fun b => b.1.toNat < 128) = false ∧
        words.foldlM appendBits acc = .error (.internal .overflow) := by
  induction words generalizing acc with
  | nil => exact .inl ⟨acc, rfl⟩
  | cons next words ih =>
    rw [List.foldlM_cons, List.all_cons, appendBits]
    by_cases narrow : next.1.toNat < 128
    · rw [within_of_lt narrow, decide_eq_true narrow]
      exact ih _
    · rw [within, if_neg narrow, decide_eq_false narrow]
      exact .inr ⟨rfl, rfl⟩

end Shifts

theorem position_lt {bits : Word} (masked : bits &&& mask w = bits) :
    position bits < 1 <<< w.toNat := by
  have small : bits.toNat < 1 <<< w.toNat := by
    by_cases narrow : w ≤ 128
    · have low := toNat_and_mask bits narrow
      rw [masked] at low
      rw [low, Nat.one_shiftLeft]
      exact Nat.mod_lt _ (Nat.two_pow_pos _)
    · have wide : 128 ≤ w.toNat := by
        have := UInt64.le_iff_toNat_le.not.mp narrow
        have : (128 : UInt64).toNat = 128 := rfl
        omega
      rw [Nat.one_shiftLeft]
      exact Nat.lt_of_lt_of_le bits.isLt (Nat.pow_le_pow_right (by decide) wide)
  exact Nat.lt_of_le_of_lt (Nat.mod_le _ _) small

/-- An operator that the engine knows has a value at all elements of the sorts of its arguments, or
breaks off where a shift does not fit. -/
theorem apply_ends (fill : Fill sorts args) (result : op.resultSort sorts = .ok (some sort))
    (evaluated : op.prim.isEvaluated = true) : (∃ x, apply op args sort = .ok x) ∨
      op.shiftsFit sorts = false ∧ apply op args sort = .error (.internal .overflow) := by
  have arity := Op.arity_of_resultSort result
  have signature := Op.signature_of_resultSort result
  obtain ⟨prim, indices⟩ := op
  cases prim with
  | not =>
    obtain ⟨a, s, rfl, rfl, holds⟩ := fill.one (Arity.eq_of_admits_exactly arity)
    obtain rfl := Op.bools_of_connective signature s List.mem_cons_self
    obtain ⟨b, rfl⟩ := eq_bool_of_holds holds
    exact .inl ⟨_, rfl⟩
  | and | or | xor =>
    obtain ⟨bs, read⟩ := fill.bools (Op.bools_of_connective signature)
    exact .inl ⟨_, bind_of_ok read⟩
  | implies | iff =>
    obtain ⟨a, b, s, r, rfl, rfl, first, second⟩ := fill.two (Arity.eq_of_admits_exactly arity)
    have truths := Op.bools_of_connective signature
    obtain rfl := truths s List.mem_cons_self
    obtain rfl := truths r (List.mem_cons_of_mem _ List.mem_cons_self)
    obtain ⟨p, rfl⟩ := eq_bool_of_holds first
    obtain ⟨q, rfl⟩ := eq_bool_of_holds second
    cases p <;> exact .inl ⟨_, rfl⟩
  | ite =>
    obtain ⟨c, a, b, s, _, _, rfl, rfl, first, -⟩ := fill.three (Arity.eq_of_admits_exactly arity)
    cases Op.bool_of_choice signature
    obtain ⟨p, rfl⟩ := eq_bool_of_holds first
    cases p <;> exact .inl ⟨_, rfl⟩
  | equal | distinct => exact .inl ⟨_, rfl⟩
  | bvNot | bvNeg =>
    obtain ⟨w, bits, rfl⟩ :=
      fill.word (Arity.eq_of_admits_exactly arity) (Op.word_of_bitUnary signature)
    exact .inl ⟨_, rfl⟩
  | bvAnd | bvOr | bvXor | bvAdd | bvSub | bvMul =>
    exact .inl <| foldBits_succeeds _ _ fill (Op.words_of_bitwise signature)
      (Nat.lt_of_lt_of_le Nat.two_pos (Arity.le_of_admits_atLeast arity))
  | bvUlt | bvUle | bvUgt | bvUge =>
    obtain ⟨a, b, -, compared⟩ := compareBits_eq _ fill (Op.words_of_bitOrdering signature)
      (Arity.eq_of_admits_exactly arity)
    exact .inl ⟨_, compared⟩
  | bvSlt | bvSle =>
    obtain ⟨a, b, rfl, compared⟩ := compareBits_eq _ fill (Op.words_of_bitOrdering signature)
      (Arity.eq_of_admits_exactly arity)
    obtain ⟨c, valued⟩ | ⟨unfit, broken⟩ := signedly_ends _ a b
    · exact .inl ⟨.bool c, compared.trans (congrArg _ valued)⟩
    · refine .inr ⟨?_, compared.trans (congrArg _ broken)⟩
      simpa [Op.shiftsFit, width?] using unfit
  | concat =>
    obtain ⟨bits, read, rfl⟩ := fill.words (Op.words_of_concatenation signature)
    have applied : apply ⟨.concat, indices⟩ args sort =
        (ofBits (sort.width?.getD 0) <$> bits.foldlM appendBits 0) := bind_of_ok read
    obtain ⟨gathered, valued⟩ | ⟨unfit, broken⟩ := gathered_ends bits 0
    · exact .inl ⟨_, applied.trans (congrArg _ valued)⟩
    · refine .inr ⟨?_, applied.trans (congrArg _ broken)⟩
      rw [← unfit]
      exact List.all_map
  | extract =>
    obtain ⟨w, bits, rfl⟩ :=
      fill.word (Arity.eq_of_admits_exactly arity) (Op.word_of_extraction signature)
    have applied : apply ⟨.extract, indices⟩ [.bitVec w bits] sort =
      (fun low => ofBits (sort.width?.getD 0) (bits >>> low)) <$>
        within 128 ((Op.index? ⟨.extract, indices⟩ 1).getD 0).toNat := rfl
    by_cases fits : ((Op.index? ⟨.extract, indices⟩ 1).getD 0).toNat < 128
    · exact .inl ⟨_, applied.trans (congrArg _ (within_of_lt fits))⟩
    · exact .inr ⟨decide_eq_false fits, applied.trans (congrArg _ (if_neg fits))⟩
  | zeroExtend =>
    obtain ⟨w, bits, rfl⟩ :=
      fill.word (Arity.eq_of_admits_exactly arity) (Op.word_of_extension signature)
    exact .inl ⟨_, rfl⟩
  | select =>
    obtain ⟨a, i, s, r, rfl, rfl, first, second⟩ := fill.two (Arity.eq_of_admits_exactly arity)
    obtain ⟨index, array, at'⟩ := Op.index_of_reading signature
    cases array
    cases at'
    obtain ⟨w, cells, rfl, rfl, length, -⟩ := eq_array_of_holds first
    obtain ⟨bits, rfl, masked⟩ := eq_bitVec_of_holds second
    have within : position bits < cells.length := length ▸ position_lt masked
    have read : cells[position bits]? = some cells[position bits] :=
      List.getElem?_eq_getElem within
    refine .inl ⟨cells[position bits], ?_⟩
    simp only [apply, applyArray, asBits, asCells, bind, Except.bind, read]
    rfl
  | store =>
    obtain ⟨a, i, y, s, r, q, rfl, rfl, first, second, -⟩ :=
      fill.three (Arity.eq_of_admits_exactly arity)
    obtain ⟨index, element, array, at'⟩ := Op.index_of_writing signature
    cases array
    cases at'
    obtain ⟨w, cells, rfl, rfl, -⟩ := eq_array_of_holds first
    obtain ⟨bits, rfl, -⟩ := eq_bitVec_of_holds second
    exact .inl ⟨_, rfl⟩
  | _ => cases evaluated

theorem apply_succeeds (fill : Fill sorts args) (result : op.resultSort sorts = .ok (some sort))
    (evaluated : op.prim.isEvaluated = true) (fits : op.shiftsFit sorts = true) :
    ∃ x, apply op args sort = .ok x :=
  (apply_ends fill result evaluated).resolve_right fun broken => by simp [fits] at broken

end Datum

namespace NodeStore

variable {store : NodeStore} {env : Assignment} {t : Handle} {node : Node} {sort : LogicSort}

/-- The engine can evaluate the node if it can evaluate its operands. -/
def Evaluates (store : NodeStore) (sort : LogicSort) : Node → Prop
  | .symbol _ => ∃ bits ≤ 128, sort.searchBits = .ok bits
  | .constArray _ => ∃ bits, sort.searchBits = .ok bits
  | .value (.bool _) | .value (.bitVec _ _) => True
  | .value _ => False
  | .application op args => op.prim.isEvaluated = true ∧
    ∀ sorts, List.Forall₂ (fun a s => ∃ node, store.find? a = some (node, s)) args sorts →
      op.shiftsFit sorts = true

theorem evaluates_of_fits {l : Literal} {bits : Nat} (fits : l.fits sort = true)
    (counted : sort.searchBits = .ok bits) (portable : ∀ text, l ≠ .other text) :
    store.Evaluates sort (.value l) := by
  cases l with
  | bool | bitVec => trivial
  | other text => exact absurd rfl (portable text)
  | int | real =>
    cases sort with
    | int | real => cases counted
    | _ => cases fits

theorem cellCount_succeeds {index element : LogicSort} {bits : Nat}
    (counted : (LogicSort.array index element).searchBits = .ok bits) :
    ∃ n, cellCount (.array index element) = .ok n := by
  obtain ⟨w, step, rfl, small, -⟩ := LogicSort.searchBits_array counted
  exact ⟨_, LogicSort.positions_of_lt (by omega)⟩

/-- A node has a value if all that goes into it can be evaluated. -/
theorem eval_succeeds (sorted : store.Sorted) (admits : store.Admits env)
    (found : store.find? t = some (node, sort))
    (evaluated : ∀ u node sort, store.Below u t → store.find? u = some (node, sort) →
      store.Evaluates sort node) : ∃ x, store.eval env t = .ok x := by
  induction h : t.index using Nat.strongRecOn generalizing t node sort with
  | ind n ih =>
    subst h
    have known := evaluated t node sort .here found
    have operands : ∀ c ∈ node.operands, ∃ x, store.eval env c = .ok x := by
      intro c hc
      obtain ⟨inner, s, found'⟩ := find?_operand found hc
      exact ih c.index (operand_lt found hc) found'
        (fun u node sort below => evaluated u node sort (.operand found hc below)) rfl
    have fits := sorted t node sort found
    rw [eval_of_find? found]
    cases node with
    | symbol name =>
      obtain ⟨bits, narrow, counted⟩ := known
      obtain ⟨x, valued, -⟩ := eval_symbol admits found counted narrow
      exact ⟨x, eval_of_find? found ▸ valued⟩
    | value l =>
      cases l with
      | bool | bitVec => exact ⟨_, rfl⟩
      | int | real | other => exact known.elim
    | constArray fill =>
      obtain ⟨index, element, inner, rfl, foundFill⟩ := fits
      obtain ⟨bits, counted⟩ := known
      obtain ⟨count, counts⟩ := cellCount_succeeds counted
      obtain ⟨x, filled⟩ := operands fill List.mem_cons_self
      rw [evalNode, bind_of_ok counts, bind_of_ok filled]
      exact ⟨_, rfl⟩
    | application op args =>
      obtain ⟨sorts, typed, result⟩ := fits
      obtain ⟨values, valued⟩ := mapM_succeeds operands
      have fill : Datum.Fill sorts values := by
        refine forall₂_join typed (forall₂_of_mapM valued) ?_
        rintro a ha s x ⟨inner, foundArg⟩ evaluatedArg
        exact holds_eval sorted admits foundArg evaluatedArg
      obtain ⟨x, applied⟩ := Datum.apply_succeeds fill result known.1 (known.2 sorts typed)
      exact ⟨x, (bind_of_ok valued).trans applied⟩

theorem eval_bool_succeeds (sorted : store.Sorted) (admits : store.Admits env)
    (found : store.find? t = some (node, .bool))
    (evaluated : ∀ u node sort, store.Below u t → store.find? u = some (node, sort) →
      store.Evaluates sort node) : ∃ b, store.eval env t = .ok (.bool b) := by
  obtain ⟨x, valued⟩ := eval_succeeds sorted admits found evaluated
  obtain ⟨b, rfl⟩ := Datum.eq_bool_of_holds (holds_eval sorted admits found valued)
  exact ⟨b, valued⟩

end NodeStore

end FormulaGraph
