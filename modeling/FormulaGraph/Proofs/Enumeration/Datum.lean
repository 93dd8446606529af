import FormulaGraph.Enumeration.Eval
import FormulaGraph.Proofs.Op.ResultSort

/-!
The elements of a sort, and that operators keep to them: an application of operators to elements of
the argument sorts, if it has a value, has an element of the result sort.
-/

namespace FormulaGraph

section Within

variable {limit n m : Nat}

theorem within_of_lt (below : n < limit) : within limit n = .ok n := if_pos below

theorem within_ok (h : within limit n = .ok m) : m = n ∧ n < limit := by
  unfold within at h
  split at h
  · cases h
    exact ⟨rfl, ‹_›⟩
  · cases h

theorem plainly_within (limit n : Nat) : Plainly (within limit n) := .ite (.ok n) (.error trivial)

end Within

namespace LogicSort

/-- The datum is an element of the sort. -/
def Holds : LogicSort → Datum → Prop
  | .bool, .bool _ => True
  | .bitVec w, .bitVec v bits => v = w ∧ bits &&& mask w = bits
  | .array index element, .array cells =>
    (∃ w, index = .bitVec w ∧ cells.length = 1 <<< w.toNat) ∧ ∀ x ∈ cells, element.Holds x
  | _, _ => False

variable {sort index element : LogicSort} {x : Datum} {w : UInt64}

theorem holds_bool (b : Bool) : bool.Holds (.bool b) := trivial

theorem holds_ofBits (w : UInt64) (bits : Word) : (bitVec w).Holds (.ofBits w bits) := by
  refine ⟨rfl, ?_⟩
  rw [BitVec.and_assoc, BitVec.and_self]

theorem eq_array_of_holds (holds : (array index element).Holds x) :
    ∃ w cells, index = .bitVec w ∧ x = .array cells ∧ cells.length = 1 <<< w.toNat ∧
      ∀ y ∈ cells, element.Holds y := by
  cases x with
  | array cells =>
    obtain ⟨⟨w, index_eq, length⟩, cellsHold⟩ := holds
    exact ⟨w, cells, index_eq, rfl, length, cellsHold⟩
  | bool | bitVec => cases holds

theorem holds_array {cells : List Datum} (length : cells.length = 1 <<< w.toNat)
    (cellsHold : ∀ y ∈ cells, element.Holds y) :
    (array (.bitVec w) element).Holds (.array cells) :=
  ⟨⟨w, rfl, length⟩, cellsHold⟩

theorem expectBool_ok (h : sort.expectBool = .ok ()) : sort = .bool := by
  unfold expectBool at h
  cases sort with
  | bool => rfl
  | _ => cases h

theorem expectBitVec_ok (h : sort.expectBitVec = .ok w) : sort = .bitVec w := by
  unfold expectBitVec at h
  cases sort with
  | bitVec v => cases h; rfl
  | _ => cases h

theorem expectArray_ok (h : sort.expectArray = .ok (index, element)) :
    sort = .array index element := by
  unfold expectArray at h
  cases sort with
  | array i e => cases h; rfl
  | _ => cases h

theorem positions_ok {count : Nat} (h : index.positions = .ok count) :
    ∃ w, index = .bitVec w ∧ w.toNat < 64 ∧ count = 1 <<< w.toNat := by
  obtain ⟨w, width, h⟩ := ok_of_bind h
  obtain ⟨_, small, h⟩ := ok_of_bind h
  obtain ⟨rfl, below⟩ := within_ok small
  cases h
  exact ⟨w, expectBitVec_ok width, below, rfl⟩

theorem positions_of_lt (small : w.toNat < 64) : (bitVec w).positions = .ok (1 <<< w.toNat) := by
  show (within 64 w.toNat >>= _) = _
  rw [within_of_lt small]
  rfl

theorem holds_decode (sort : LogicSort) {bits : Nat} {x : Datum} (h : sort.decode bits = .ok x) :
    sort.Holds x := by
  match sort with
  | .bool =>
    rw [decode] at h
    cases h
    exact holds_bool _
  | .bitVec w =>
    rw [decode] at h
    cases h
    exact holds_ofBits _ _
  | .array index element =>
    rw [decode] at h
    obtain ⟨count, positions, h⟩ := ok_of_bind h
    obtain ⟨step, _, h⟩ := ok_of_bind h
    obtain ⟨cells, decoded, h⟩ := ok_of_bind h
    cases h
    have related := forall₂_of_mapM decoded
    obtain ⟨w, rfl, -, rfl⟩ := positions_ok positions
    refine holds_array ?_ fun y hy => ?_
    · rw [← related.length_eq, List.length_range]
    · obtain ⟨i, -, cell⟩ := exists_of_forall₂ related hy
      obtain ⟨shift, -, cell⟩ := ok_of_bind cell
      exact holds_decode element cell
  | .int | .real | .function _ _ | .uninterpreted _ _ | .datatype _ | .param _ | .unresolved _ =>
    cases h

theorem plainly_searchBits (sort : LogicSort) : Plainly sort.searchBits := by
  match sort with
  | .bool | .bitVec _ => exact .ok _
  | .array index element =>
    rw [searchBits]
    exact .bind (plainly_expectBitVec index) fun _ => .guard trivial <|
      .bind (plainly_searchBits element) fun _ => plainly_within _ _
  | .int | .real | .function _ _ | .uninterpreted _ _ | .datatype _ | .param _ | .unresolved _ =>
    exact .error trivial

theorem plainly_positions (index : LogicSort) : Plainly index.positions :=
  .bind (plainly_expectBitVec index) fun _ => .bind (plainly_within _ _) fun _ => .pure _

theorem plainly_decode (sort : LogicSort) (bits : Nat) : Plainly (sort.decode bits) := by
  match sort with
  | .bool | .bitVec _ => exact .ok _
  | .array index element =>
    rw [decode]
    exact .bind (plainly_positions index) fun _ => .bind (plainly_searchBits element) fun _ =>
      .bind (.mapM fun _ _ => .bind (plainly_within _ _) fun _ => plainly_decode element _)
        fun _ => .pure _
  | .int | .real | .function _ _ | .uninterpreted _ _ | .datatype _ | .param _ | .unresolved _ =>
    exact .error trivial

end LogicSort

namespace Op

open LogicSort

variable {op : Op} {args : List LogicSort} {sort : LogicSort}

theorem argument_ok {i : Nat} {s : LogicSort} (h : op.argument args i = .ok s) :
    args[i]? = some s := by
  unfold argument at h
  split at h
  · cases h
    assumption
  · cases h

theorem signature_of_resultSort (h : op.resultSort args = .ok (some sort)) :
    op.sortBySignature args op.prim.signature = .ok (some sort) := by
  unfold resultSort at h
  split at h
  · cases h
  · split at h
    · cases h
    · exact h

theorem sort_of_connective (h : op.sortBySignature args .connective = .ok (some sort)) :
    sort = .bool := by
  obtain ⟨_, _, h⟩ := ok_of_bind h
  cases h
  rfl

theorem bools_of_connective (h : op.sortBySignature args .connective = .ok (some sort)) :
    ∀ s ∈ args, s = .bool := by
  obtain ⟨⟨⟩, truths, -⟩ := ok_of_bind h
  exact fun s hs => expectBool_ok (ok_of_forM truths s hs)

theorem sort_of_agreement (h : op.sortBySignature args .agreement = .ok (some sort)) :
    sort = .bool := by
  obtain ⟨_, _, h⟩ := ok_of_bind h
  cases h
  rfl

theorem sort_of_bitOrdering (h : op.sortBySignature args .bitOrdering = .ok (some sort)) :
    sort = .bool := by
  obtain ⟨_, _, h⟩ := ok_of_bind h
  cases h
  rfl

theorem sorts_of_choice (h : op.sortBySignature args .choice = .ok (some sort)) :
    args[1]? = some sort ∧ args[2]? = some sort := by
  obtain ⟨c, _, h⟩ := ok_of_bind h
  obtain ⟨_, _, h⟩ := ok_of_bind h
  obtain ⟨s, first, h⟩ := ok_of_bind h
  obtain ⟨s', second, h⟩ := ok_of_bind h
  obtain ⟨_, same, h⟩ := ok_of_bind h
  cases h
  rw [expectSame_eq_ok_iff.mp same]
  exact ⟨expectSame_eq_ok_iff.mp same ▸ argument_ok first, argument_ok second⟩

theorem sort_of_bitwise (h : op.sortBySignature args .bitwise = .ok (some sort)) :
    ∃ w, sort = .bitVec w := by
  obtain ⟨w, _, h⟩ := ok_of_map h
  cases h
  exact ⟨w, rfl⟩

theorem sort_of_concatenation (h : op.sortBySignature args .concatenation = .ok (some sort)) :
    ∃ w, sort = .bitVec w := by
  obtain ⟨w, _, h⟩ := ok_of_map h
  cases h
  exact ⟨w, rfl⟩

theorem sort_of_extension (h : op.sortBySignature args .extension = .ok (some sort)) :
    ∃ w, sort = .bitVec w := by
  obtain ⟨_, _, h⟩ := ok_of_bind h
  obtain ⟨_, _, h⟩ := ok_of_bind h
  obtain ⟨_, _, h⟩ := ok_of_bind h
  obtain ⟨w, _, h⟩ := ok_of_map h
  cases h
  exact ⟨w, rfl⟩

theorem sort_of_extraction (h : op.sortBySignature args .extraction = .ok (some sort)) :
    ∃ w, sort = .bitVec w := by
  obtain ⟨s, result, h⟩ := ok_of_map h
  cases h
  obtain ⟨_, _, result⟩ := ok_of_bind result
  obtain ⟨_, _, result⟩ := ok_of_bind result
  obtain ⟨high, _, result⟩ := ok_of_bind result
  obtain ⟨low, _, result⟩ := ok_of_bind result
  dsimp only at result
  split at result
  · cases result
  · cases result
    exact ⟨_, rfl⟩

theorem sort_of_bitUnary (h : op.sortBySignature args .bitUnary = .ok (some sort)) :
    ∃ w, sort = .bitVec w := by
  obtain ⟨s, _, h⟩ := ok_of_bind h
  obtain ⟨_, width, h⟩ := ok_of_bind h
  obtain ⟨w, width, _⟩ := ok_of_map width
  cases h
  exact ⟨w, expectBitVec_ok width⟩

theorem sort_of_reading (h : op.sortBySignature args .reading = .ok (some sort)) :
    ∃ index, args[0]? = some (.array index sort) := by
  obtain ⟨s, first, h⟩ := ok_of_bind h
  obtain ⟨⟨index, element⟩, array, h⟩ := ok_of_bind h
  obtain ⟨_, _, h⟩ := ok_of_bind h
  obtain ⟨_, _, h⟩ := ok_of_bind h
  cases h
  exact ⟨index, expectArray_ok array ▸ argument_ok first⟩

theorem sorts_of_writing (h : op.sortBySignature args .writing = .ok (some sort)) :
    ∃ index element, sort = .array index element ∧ args[0]? = some sort ∧
      args[2]? = some element := by
  obtain ⟨s, first, h⟩ := ok_of_bind h
  obtain ⟨⟨index, element⟩, array, h⟩ := ok_of_bind h
  obtain ⟨_, _, h⟩ := ok_of_bind h
  obtain ⟨_, _, h⟩ := ok_of_bind h
  obtain ⟨_, third, h⟩ := ok_of_bind h
  obtain ⟨_, same, h⟩ := ok_of_bind h
  cases h
  exact ⟨index, element, expectArray_ok array, argument_ok first,
    expectSame_eq_ok_iff.mp same ▸ argument_ok third⟩

end Op

namespace Datum

open LogicSort

variable {op : Op} {sorts : List LogicSort} {args : List Datum} {sort : LogicSort} {x : Datum}
  {w : UInt64}

/-- The arguments are elements of these sorts. -/
abbrev Fill (sorts : List LogicSort) (args : List Datum) : Prop :=
  List.Forall₂ LogicSort.Holds sorts args

theorem Fill.get {i : Nat} {s : LogicSort} (fill : Fill sorts args) (hs : sorts[i]? = some s)
    (hx : args[i]? = some x) : s.Holds x := by
  induction fill generalizing i with
  | nil => simp at hs
  | cons first _ ih =>
    cases i with
    | zero =>
      cases hs
      cases hx
      exact first
    | succ i => exact ih hs hx

theorem holds_foldBits {f : Word → Word → Word} (h : foldBits f w args = .ok x) :
    (LogicSort.bitVec w).Holds x := by
  obtain ⟨bits, _, h⟩ := ok_of_bind h
  split at h
  · cases h
  · cases h
    exact holds_ofBits _ _

theorem holds_compareBits {f : UInt64 × Word → UInt64 × Word → Except Error Bool}
    (h : compareBits f args = .ok x) : LogicSort.bool.Holds x := by
  obtain ⟨bits, _, h⟩ := ok_of_bind h
  split at h
  · obtain ⟨b, _, h⟩ := ok_of_bind h
    cases h
    exact holds_bool _
  · cases h

theorem applyCore_cases (applied : applyCore op args = .ok x) :
    (op.prim.signature = .connective ∨ op.prim.signature = .agreement) ∧ (∃ b, x = .bool b) ∨
      op.prim.signature = .choice ∧ ∃ c a b, args = [c, a, b] ∧ (x = a ∨ x = b) := by
  unfold applyCore at applied
  split at applied
  · rename_i prim
    obtain ⟨b, _, h⟩ := ok_of_bind applied
    cases h
    exact .inl ⟨.inl (by rw [prim]; rfl), _, rfl⟩
  · rename_i prim
    obtain ⟨bs, _, h⟩ := ok_of_bind applied
    cases h
    exact .inl ⟨.inl (by rw [prim]; rfl), _, rfl⟩
  · rename_i prim
    obtain ⟨bs, _, h⟩ := ok_of_bind applied
    cases h
    exact .inl ⟨.inl (by rw [prim]; rfl), _, rfl⟩
  · rename_i prim
    obtain ⟨bs, _, h⟩ := ok_of_bind applied
    cases h
    exact .inl ⟨.inl (by rw [prim]; rfl), _, rfl⟩
  · rename_i prim
    refine .inl ⟨.inl (by rw [prim]; rfl), ?_⟩
    obtain ⟨b, _, h⟩ := ok_of_bind applied
    split at h
    · obtain ⟨b', _, h⟩ := ok_of_bind h
      cases h
      exact ⟨_, rfl⟩
    · cases h
      exact ⟨_, rfl⟩
  · rename_i prim
    obtain ⟨b, _, h⟩ := ok_of_bind applied
    obtain ⟨b', _, h⟩ := ok_of_bind h
    cases h
    exact .inl ⟨.inl (by rw [prim]; rfl), _, rfl⟩
  · rename_i prim
    obtain ⟨b, _, h⟩ := ok_of_bind applied
    refine .inr ⟨by rw [prim]; rfl, _, _, _, rfl, ?_⟩
    split at h
    · cases h
      exact .inl rfl
    · cases h
      exact .inr rfl
  · rename_i prim
    cases applied
    exact .inl ⟨.inr (by rw [prim]; rfl), _, rfl⟩
  · rename_i prim
    cases applied
    exact .inl ⟨.inr (by rw [prim]; rfl), _, rfl⟩
  · cases applied

theorem holds_applyCore (fill : Fill sorts args)
    (result : op.sortBySignature sorts op.prim.signature = .ok (some sort))
    (applied : applyCore op args = .ok x) : sort.Holds x := by
  cases applyCore_cases applied with
  | inl truth =>
    obtain ⟨signature, b, rfl⟩ := truth
    have sort_eq : sort = .bool := by
      cases signature with
      | inl signature => exact Op.sort_of_connective (signature ▸ result)
      | inr signature => exact Op.sort_of_agreement (signature ▸ result)
    rw [sort_eq]
    exact holds_bool b
  | inr chosen =>
    obtain ⟨signature, c, a, b, rfl, which⟩ := chosen
    obtain ⟨second, third⟩ := Op.sorts_of_choice (signature ▸ result)
    cases which with
    | inl first => exact first ▸ fill.get second rfl
    | inr last => exact last ▸ fill.get third rfl

theorem applyBits_cases {width : UInt64} (applied : applyBits op args width = .ok x) :
    op.prim.signature = .bitOrdering ∧ LogicSort.bool.Holds x ∨
      (op.prim.signature = .bitUnary ∨ op.prim.signature = .bitwise ∨
        op.prim.signature = .concatenation ∨ op.prim.signature = .extraction ∨
        op.prim.signature = .extension) ∧ (LogicSort.bitVec width).Holds x := by
  unfold applyBits at applied
  split at applied
  case h_1 | h_2 =>
    rename_i prim
    obtain ⟨bits, _, h⟩ := ok_of_bind applied
    cases h
    rw [prim]
    exact .inr ⟨.inl rfl, holds_ofBits _ _⟩
  case h_3 | h_4 | h_5 | h_6 | h_7 | h_8 =>
    rename_i prim
    rw [prim]
    exact .inr ⟨.inr (.inl rfl), holds_foldBits applied⟩
  case h_9 | h_10 | h_11 | h_12 | h_13 | h_14 =>
    rename_i prim
    rw [prim]
    exact .inl ⟨rfl, holds_compareBits applied⟩
  case h_15 =>
    rename_i prim
    obtain ⟨bits, _, h⟩ := ok_of_bind applied
    obtain ⟨gathered, _, h⟩ := ok_of_bind h
    cases h
    rw [prim]
    exact .inr ⟨.inr (.inr (.inl rfl)), holds_ofBits _ _⟩
  case h_16 =>
    rename_i prim
    obtain ⟨bits, _, h⟩ := ok_of_bind applied
    obtain ⟨low, _, h⟩ := ok_of_bind h
    cases h
    rw [prim]
    exact .inr ⟨.inr (.inr (.inr (.inl rfl))), holds_ofBits _ _⟩
  case h_17 =>
    rename_i prim
    obtain ⟨bits, _, h⟩ := ok_of_bind applied
    cases h
    rw [prim]
    exact .inr ⟨.inr (.inr (.inr (.inr rfl))), holds_ofBits _ _⟩
  case h_18 => cases applied

theorem holds_applyBits (result : op.sortBySignature sorts op.prim.signature = .ok (some sort))
    (applied : applyBits op args (sort.width?.getD 0) = .ok x) : sort.Holds x := by
  cases applyBits_cases applied with
  | inl compared =>
    have sort_eq : sort = .bool := Op.sort_of_bitOrdering (compared.1 ▸ result)
    rw [sort_eq]
    exact compared.2
  | inr bits =>
    obtain ⟨signature, holds⟩ := bits
    have sort_eq : ∃ w, sort = .bitVec w := by
      obtain signature | signature | signature | signature | signature := signature
      · exact Op.sort_of_bitUnary (signature ▸ result)
      · exact Op.sort_of_bitwise (signature ▸ result)
      · exact Op.sort_of_concatenation (signature ▸ result)
      · exact Op.sort_of_extraction (signature ▸ result)
      · exact Op.sort_of_extension (signature ▸ result)
    obtain ⟨w, rfl⟩ := sort_eq
    exact holds

theorem holds_applyArray (fill : Fill sorts args)
    (result : op.sortBySignature sorts op.prim.signature = .ok (some sort))
    (applied : applyArray op args = .ok x) : sort.Holds x := by
  unfold applyArray at applied
  split at applied
  · rename_i a i prim
    rw [prim] at result
    obtain ⟨index, first⟩ := Op.sort_of_reading result
    obtain ⟨bits, _, h⟩ := ok_of_bind applied
    obtain ⟨cells, found, read⟩ := ok_of_bind h
    obtain ⟨w, cells', rfl, rfl, _, cellsHold⟩ := eq_array_of_holds (fill.get first rfl)
    cases found
    split at read
    · rename_i y cell
      cases read
      exact cellsHold _ (List.mem_of_getElem? cell)
    · cases read
  · rename_i a i y prim
    rw [prim] at result
    obtain ⟨index, element, rfl, first, third⟩ := Op.sorts_of_writing result
    obtain ⟨cells, found, h⟩ := ok_of_bind applied
    obtain ⟨bits, _, written⟩ := ok_of_bind h
    obtain ⟨w, cells', rfl, rfl, length, cellsHold⟩ := eq_array_of_holds (fill.get first rfl)
    cases found
    cases written
    refine holds_array (by rwa [List.length_set]) fun z hz => ?_
    cases List.mem_or_eq_of_mem_set hz with
    | inl old => exact cellsHold z old
    | inr new => exact new ▸ fill.get third rfl
  · cases applied

/-- An operator, applied to elements of the argument sorts, gives an element of the result sort. -/
theorem holds_apply (fill : Fill sorts args) (result : op.resultSort sorts = .ok (some sort))
    (applied : apply op args sort = .ok x) : sort.Holds x := by
  have result := Op.signature_of_resultSort result
  unfold apply at applied
  split at applied
  case h_10 | h_11 => exact holds_applyArray fill result applied
  case h_12 => exact holds_applyBits result applied
  all_goals exact holds_applyCore fill result applied

section Plain

variable (op : Op) (d : Datum) (args : List Datum)

theorem plainly_asBool : Plainly d.asBool := by
  cases d with
  | bool b => exact .ok b
  | bitVec | array => exact .error trivial

theorem plainly_asBits : Plainly d.asBits := by
  cases d with
  | bitVec w bits => exact .ok (w, bits)
  | bool | array => exact .error trivial

theorem plainly_asCells : Plainly d.asCells := by
  cases d with
  | array cells => exact .ok cells
  | bool | bitVec => exact .error trivial

theorem plainly_bools : Plainly (args.mapM asBool) := .mapM fun d _ => plainly_asBool d

theorem plainly_words : Plainly (args.mapM asBits) := .mapM fun d _ => plainly_asBits d

theorem plainly_foldBits (f : Word → Word → Word) (width : UInt64) :
    Plainly (foldBits f width args) := by
  refine .bind (plainly_words args) fun bits => ?_
  split
  · exact .error trivial
  · exact .pure _

theorem plainly_signed (width : UInt64) (bits : Word) : Plainly (signed width bits) :=
  .ite (.pure _) <| .bind (plainly_within _ _) fun _ => .bind (plainly_within _ _) fun _ => .pure _

theorem plainly_signedly (r : Int → Int → Bool) (a b : UInt64 × Word) : Plainly (signedly r a b) :=
  .bind (plainly_signed _ _) fun _ => .bind (plainly_signed _ _) fun _ => .pure _

theorem plainly_gathered (words : List (UInt64 × Word)) (acc : Word) :
    Plainly (words.foldlM appendBits acc) := by
  induction words generalizing acc with
  | nil => exact .pure acc
  | cons next words ih =>
    rw [List.foldlM_cons]
    exact .bind (.bind (plainly_within _ _) fun _ => .pure _) fun acc => ih acc

theorem plainly_compareBits {f : UInt64 × Word → UInt64 × Word → Except Error Bool}
    (plain : ∀ a b, Plainly (f a b)) : Plainly (compareBits f args) := by
  refine .bind (plainly_words args) fun bits => ?_
  split
  · exact .bind (plain _ _) fun _ => .pure _
  · exact .error trivial

theorem plainly_applyCore : Plainly (applyCore op args) := by
  unfold applyCore
  split
  · exact .bind (plainly_asBool _) fun _ => .pure _
  · exact .bind (plainly_bools _) fun _ => .pure _
  · exact .bind (plainly_bools _) fun _ => .pure _
  · exact .bind (plainly_bools _) fun _ => .pure _
  · exact .bind (plainly_asBool _) fun _ =>
      .ite (.bind (plainly_asBool _) fun _ => .pure _) (.pure _)
  · exact .bind (plainly_asBool _) fun _ => .bind (plainly_asBool _) fun _ => .pure _
  · exact .bind (plainly_asBool _) fun _ => .ite (.pure _) (.pure _)
  · exact .pure _
  · exact .pure _
  · exact .error trivial

theorem plainly_applyBits (width : UInt64) : Plainly (applyBits op args width) := by
  unfold applyBits
  split
  case h_3 | h_4 | h_5 | h_6 | h_7 | h_8 => exact plainly_foldBits _ _ _
  case h_9 | h_10 | h_11 | h_12 => exact plainly_compareBits _ fun _ _ => .ok _
  case h_13 | h_14 => exact plainly_compareBits _ (plainly_signedly _)
  case h_15 => exact .bind (plainly_words _) fun _ => .bind (plainly_gathered _ _) fun _ => .pure _
  case h_16 => exact .bind (plainly_asBits _) fun _ => .bind (plainly_within _ _) fun _ => .pure _
  case h_18 => exact .error trivial
  all_goals exact .bind (plainly_asBits _) fun _ => .pure _

theorem plainly_applyArray : Plainly (applyArray op args) := by
  unfold applyArray
  split
  · refine .bind (plainly_asBits _) fun _ => .bind (plainly_asCells _) fun _ => ?_
    split
    · exact .pure _
    · exact .error trivial
  · exact .bind (plainly_asCells _) fun _ => .bind (plainly_asBits _) fun _ => .pure _
  · exact .error trivial

theorem plainly_apply (sort : LogicSort) : Plainly (apply op args sort) := by
  unfold apply
  split
  case h_10 | h_11 => exact plainly_applyArray op args
  case h_12 => exact plainly_applyBits op args _
  all_goals exact plainly_applyCore op args

end Plain

end Datum

end FormulaGraph
