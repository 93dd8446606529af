import FormulaGraph.Proofs.Guarded
import FormulaGraph.Proofs.Op.ResultSort

/-!
The sort of an application, computed with what must not happen made visible: reading an argument or
an index that was not given, and a sum or a difference of widths that is out of range. The number of
arguments and of indices, which are checked first, are enough for what the signature of the operator
reads, so none of this happens, and every refusal blames the request.
-/

namespace FormulaGraph

namespace Guarded

def argument (args : List LogicSort) (i : Nat) : Guarded LogicSort :=
  match args[i]? with
  | some s => pure s
  | none => fault (.argument i)

/-- The arguments after the first. -/
def others : List LogicSort → Guarded (List LogicSort)
  | [] => fault (.argument 0)
  | _ :: args => pure args

def index (op : Op) (i : Nat) : Guarded UInt64 :=
  match op.index? i with
  | some x => pure x
  | none => fault (.index i)

/-- The number below. -/
def below : Nat → Guarded Nat
  | 0 => fault .wraps
  | n + 1 => pure n

def add (w v : UInt64) : Guarded UInt64 :=
  if w.toNat + v.toNat < UInt64.size then pure (w + v) else fault .wraps

def sub (w v : UInt64) : Guarded UInt64 :=
  if v ≤ w then pure (w - v) else fault .wraps

/-- The common sort of the arguments. -/
def agreement (args : List LogicSort) : Guarded LogicSort := do
  let s ← argument args 0
  checked ((← others args).forM s.expectSame)
  return s

def commonArith (args : List LogicSort) : Guarded LogicSort := do
  checked (← argument args 0).expectArith
  agreement args

def commonWidth (args : List LogicSort) : Guarded UInt64 := do
  let w ← checked (← argument args 0).expectBitVec
  discard (agreement args)
  return w

def applicationSort (op : Op) (args : List LogicSort) : Guarded LogicSort := do
  match ← argument args 0 with
  | .function domain range =>
    if domain.length ≠ (← below args.length) then
      throw (.arity op s!"{domain.length + 1}" args.length)
    checked ((domain.zip (← others args)).forM fun (d, a) => d.expectSame a)
    return range
  | other => throw (.unexpectedSort "Function" other)

def extractionSort (op : Op) (args : List LogicSort) : Guarded LogicSort := do
  let s ← argument args 0
  let w ← checked s.expectBitVec
  let high ← index op 0
  let low ← index op 1
  if high ≥ w ∨ low > high then throw (.usage (.extractOutside op s))
  return .bitVec (← add (← sub high low) 1)

def repetitionSort (op : Op) (args : List LogicSort) : Guarded LogicSort := do
  let times ← index op 0
  if times = 0 then throw (.usage .emptyRepetition)
  let w ← checked (← argument args 0).expectBitVec
  return .bitVec (← checked (op.widthOrTooWide (Width.mul? w times)))

def sortBySignature (op : Op) (args : List LogicSort) : Signature → Guarded (Option LogicSort)
  | .nothing => throw (.usage .nullApplied)
  | .connective => do
    checked (args.forM LogicSort.expectBool)
    return some .bool
  | .choice => do
    checked (← argument args 0).expectBool
    let s ← argument args 1
    checked (s.expectSame (← argument args 2))
    return some s
  | .agreement => do
    discard (agreement args)
    return some .bool
  | .application => some <$> applicationSort op args
  | .arithmetic => some <$> commonArith args
  | .signChange => do
    let s ← argument args 0
    checked s.expectArith
    return some s
  | .division => do
    discard (commonArith args)
    return some .real
  | .integral => do
    checked (args.forM (LogicSort.expectSame .int))
    return some .int
  | .ordering => do
    discard (commonArith args)
    return some .bool
  | .conversion source target => do
    checked (source.expectSame (← argument args 0))
    return some target
  | .concatenation => (some ∘ .bitVec) <$> checked (op.totalWidth args)
  | .extraction => some <$> extractionSort op args
  | .bitUnary => do
    let s ← argument args 0
    discard (checked s.expectBitVec)
    return some s
  | .bitwise => (some ∘ .bitVec) <$> commonWidth args
  | .bitComparison => do
    discard (commonWidth args)
    return some (.bitVec 1)
  | .bitOrdering => do
    discard (commonWidth args)
    return some .bool
  | .extension => do
    let w ← checked (← argument args 0).expectBitVec
    (some ∘ .bitVec) <$> checked (op.widthOrTooWide (Width.add? w (← index op 0)))
  | .repetition => some <$> repetitionSort op args
  | .numberOfBits => do
    discard (checked (← argument args 0).expectBitVec)
    return some .int
  | .bitsOfNumber => do
    checked (LogicSort.int.expectSame (← argument args 0))
    return some (.bitVec (← index op 0))
  | .reading => do
    let (index, element) ← checked (← argument args 0).expectArray
    checked (index.expectSame (← argument args 1))
    return some element
  | .writing => do
    let array ← argument args 0
    let (index, element) ← checked array.expectArray
    checked (index.expectSame (← argument args 1))
    checked (element.expectSame (← argument args 2))
    return some array
  | .quantification => do
    checked (← argument args (← below args.length)).expectBool
    return some .bool
  | .byEngine => return none

/-- The sort of the operator applied to arguments of these sorts. -/
def resultSort (op : Op) (args : List LogicSort) : Guarded (Option LogicSort) :=
  if !op.isWellFormed then throw (.usage (.malformedOp op))
  else if !op.prim.arity.admits args.length then
    throw (.arity op op.prim.arity.text args.length)
  else sortBySignature op args op.prim.signature

section Reads

variable {op : Op} {args : List LogicSort} {s : LogicSort} {w v : UInt64} {i : Nat}

theorem meets_argument (given : i < args.length) :
    Meets (argument args i) (op.argument args i) := by
  unfold argument Op.argument
  rw [List.getElem?_eq_getElem given]
  exact .pure _

theorem meets_index (carried : i < op.indexCount) : Meets (index op i) (op.index i) := by
  have found : ∃ x, op.index? i = some x := by
    obtain ⟨prim, indices⟩ := op
    cases indices with
    | none => exact absurd carried (Nat.not_lt_zero i)
    | one x =>
      obtain rfl := Nat.lt_one_iff.mp carried
      exact ⟨x, rfl⟩
    | two x y =>
      cases i with
      | zero => exact ⟨x, rfl⟩
      | succ i =>
        obtain rfl : i = 0 := by simp only [Op.indexCount] at carried; omega
        exact ⟨y, rfl⟩
  obtain ⟨x, found⟩ := found
  unfold index Op.index
  rw [found]
  exact .pure x

theorem add_eq (fits : w.toNat + v.toNat < UInt64.size) : add w v = pure (w + v) := if_pos fits

theorem sub_eq (ordered : v ≤ w) : sub w v = pure (w - v) := if_pos ordered

theorem blames_expectBool (s : LogicSort) : FailsOnly Blames s.expectBool :=
  LogicSort.failsOnly_expectBool (F := Blames) rfl

theorem blames_expectArith (s : LogicSort) : FailsOnly Blames s.expectArith :=
  LogicSort.failsOnly_expectArith (F := Blames) rfl

theorem blames_expectArray (s : LogicSort) : FailsOnly Blames s.expectArray :=
  LogicSort.failsOnly_expectArray (F := Blames) rfl

theorem blames_expectSame (s t : LogicSort) : FailsOnly Blames (s.expectSame t) :=
  LogicSort.failsOnly_expectSame (F := Blames) rfl

theorem blames_expectBitVec (s : LogicSort) : FailsOnly Blames s.expectBitVec :=
  LogicSort.failsOnly_expectBitVec (F := Blames) rfl

theorem blames_widthOrTooWide (o : Option UInt64) : FailsOnly Blames (op.widthOrTooWide o) :=
  Op.failsOnly_widthOrTooWide (F := Blames) rfl o

theorem meets_agreement :
    Meets (agreement (s :: args)) (Op.expectAgreement (s :: args) >>= fun _ => pure s) :=
  .bind (x := checked (args.forM s.expectSame)) (.checked (.forM (blames_expectSame s) args))
    fun _ _ => .pure s

theorem meets_discard_agreement :
    Meets (discard (agreement (s :: args))) (Op.expectAgreement (s :: args)) := by
  have meets : Meets (discard (agreement (s :: args)))
      (discard (Op.expectAgreement (s :: args) >>= fun _ => pure s)) := meets_agreement.discard
  have same (r : Except Error Unit) : discard (r >>= fun _ => pure s) = r := by cases r <;> rfl
  rwa [same] at meets

theorem meets_commonArith : Meets (commonArith (s :: args)) (op.commonArith (s :: args)) :=
  .bind (x := checked s.expectArith) (.checked (blames_expectArith s)) fun _ _ => meets_agreement

theorem meets_commonWidth : Meets (commonWidth (s :: args)) (op.commonWidth (s :: args)) :=
  .bind (x := checked s.expectBitVec) (.checked (blames_expectBitVec s))
    fun w _ => meets_discard_agreement.bind fun _ _ => .pure w

theorem meets_totalWidth : Meets (checked (op.totalWidth args)) (op.totalWidth args) :=
  .checked <| .foldlM (fun _ s => .bind (blames_expectBitVec s) fun _ => blames_widthOrTooWide _)
    args 0

theorem applicationSort_function (op : Op) (domain : List LogicSort) (range : LogicSort) :
    applicationSort op (.function domain range :: args) =
      if domain.length ≠ args.length then throw
        (.arity op s!"{domain.length + 1}" (args.length + 1))
      else checked ((domain.zip args).forM fun p => p.1.expectSame p.2) >>=
        fun _ => pure range := by
  rw [applicationSort]
  dsimp only [argument, below, others, List.getElem?_cons_zero, List.length_cons]
  simp only [pure_bind]
  split <;> rfl

theorem meets_applicationSort :
    Meets (applicationSort op (s :: args)) (op.applicationSort (s :: args)) := by
  cases s with
  | function domain range =>
    rw [applicationSort_function]
    by_cases differ : domain.length ≠ args.length
    · have refused : op.applicationSort (.function domain range :: args) =
          .error (.arity op s!"{domain.length + 1}" (args.length + 1)) :=
        if_pos (by simpa using differ)
      rw [if_pos differ, refused]
      exact .throw rfl
    · have accepted : op.applicationSort (.function domain range :: args) =
          ((domain.zip args).forM fun p => p.1.expectSame p.2) >>= fun _ => pure range :=
        if_neg (by simpa using differ)
      rw [if_neg differ, accepted]
      exact .bind (.checked (.forM (fun p : LogicSort × LogicSort => blames_expectSame p.1 p.2) _))
        fun _ _ => .pure range
  | _ => exact .throw rfl

theorem meets_extractionSort (carried : 2 ≤ op.indexCount) :
    Meets (extractionSort op (s :: args)) (op.extractionSort (s :: args)) := by
  refine .bind (x := checked s.expectBitVec) (.checked (blames_expectBitVec s)) fun w _ => ?_
  refine .bind (meets_index (by omega)) fun high _ => .bind (meets_index (by omega)) fun low _ => ?_
  refine .guard Iff.rfl rfl fun inside => ?_
  have ordered : low ≤ high := UInt64.not_lt.mp fun h => inside (.inr h)
  have below : high.toNat < w.toNat :=
    UInt64.lt_iff_toNat_lt.mp (UInt64.not_le.mp fun h => inside (.inl h))
  have bound : w.toNat < UInt64.size := w.toNat_lt
  have fits : (high - low).toNat + (1 : UInt64).toNat < UInt64.size := by
    rw [UInt64.toNat_sub_of_le _ _ ordered, UInt64.toNat_one]
    omega
  rw [sub_eq ordered, pure_bind, add_eq fits]
  exact .pure _

theorem meets_repetitionSort (carried : 1 ≤ op.indexCount) :
    Meets (repetitionSort op (s :: args)) (op.repetitionSort (s :: args)) :=
  .bind (meets_index (by omega)) fun _ _ => .guard Iff.rfl rfl fun _ =>
    .bind (x := checked s.expectBitVec) (.checked (blames_expectBitVec s)) fun _ _ =>
      .bind (.checked (blames_widthOrTooWide _)) fun _ _ => .pure _

end Reads

end Guarded

/-- How many arguments are read by position. -/
def Signature.arguments : Signature → Nat
  | .choice | .writing => 3
  | .reading => 2
  | .agreement | .application | .arithmetic | .signChange | .division | .ordering | .conversion _ _
  | .extraction | .bitUnary | .bitwise | .bitComparison | .bitOrdering | .extension | .repetition
  | .numberOfBits | .bitsOfNumber | .quantification => 1
  | .connective | .integral | .concatenation | .byEngine | .nothing => 0

/-- How many indices are read. -/
def Signature.indices : Signature → Nat
  | .extraction => 2
  | .extension | .repetition | .bitsOfNumber => 1
  | _ => 0

/-- The arity of a tag and the number of its indices are enough for what its signature reads. -/
theorem PrimOp.provides (p : PrimOp) :
    p.signature.arguments ≤ p.arity.least ∧ p.signature.indices ≤ p.indexCount := by
  cases p <;> decide

theorem Arity.least_le_of_admits {a : Arity} {n : Nat} (admitted : a.admits n = true) :
    a.least ≤ n :=
  of_decide_eq_true (Bool.and_eq_true_iff.mp admitted).1

namespace Guarded

theorem meets_sortBySignature (op : Op) (args : List LogicSort) (signature : Signature)
    (given : signature.arguments ≤ args.length) (carried : signature.indices ≤ op.indexCount) :
    Meets (sortBySignature op args signature) (op.sortBySignature args signature) := by
  have arg {i : Nat} (h : i < signature.arguments) : Meets (argument args i) (op.argument args i) :=
    meets_argument (Nat.lt_of_lt_of_le h given)
  have idx {i : Nat} (h : i < signature.indices) : Meets (index op i) (op.index i) :=
    meets_index (Nat.lt_of_lt_of_le h carried)
  have front (h : 0 < signature.arguments) : ∃ s rest, args = s :: rest :=
    List.exists_cons_of_length_pos (Nat.lt_of_lt_of_le h given)
  cases signature with
  | nothing => exact .throw rfl
  | byEngine => exact .pure none
  | connective => exact .bind (.checked (.forM blames_expectBool args)) fun _ _ => .pure _
  | integral => exact .bind (.checked (.forM (blames_expectSame .int) args)) fun _ _ => .pure _
  | concatenation => exact .map meets_totalWidth _
  | choice =>
    exact .bind (arg (by decide)) fun s _ => .bind (.checked (blames_expectBool s)) fun _ _ =>
      .bind (arg (by decide)) fun s _ => .bind (arg (by decide)) fun t _ =>
        .bind (.checked (blames_expectSame s t)) fun _ _ => .pure _
  | agreement =>
    obtain ⟨s, rest, rfl⟩ := front (by decide)
    exact .bind meets_discard_agreement fun _ _ => .pure _
  | application =>
    obtain ⟨s, rest, rfl⟩ := front (by decide)
    exact .map meets_applicationSort _
  | arithmetic =>
    obtain ⟨s, rest, rfl⟩ := front (by decide)
    exact .map meets_commonArith _
  | division | ordering =>
    obtain ⟨s, rest, rfl⟩ := front (by decide)
    exact .bind meets_commonArith.discard fun _ _ => .pure _
  | bitwise =>
    obtain ⟨s, rest, rfl⟩ := front (by decide)
    exact .map meets_commonWidth _
  | bitComparison | bitOrdering =>
    obtain ⟨s, rest, rfl⟩ := front (by decide)
    exact .bind meets_commonWidth.discard fun _ _ => .pure _
  | extraction =>
    obtain ⟨s, rest, rfl⟩ := front (by decide)
    exact .map (meets_extractionSort carried) _
  | repetition =>
    obtain ⟨s, rest, rfl⟩ := front (by decide)
    exact .map (meets_repetitionSort carried) _
  | signChange =>
    exact .bind (arg (by decide)) fun s _ =>
      .bind (.checked (blames_expectArith s)) fun _ _ => .pure _
  | conversion source target =>
    exact .bind (arg Nat.one_pos) fun s _ =>
      .bind (.checked (blames_expectSame source s)) fun _ _ => .pure _
  | bitUnary | numberOfBits =>
    exact .bind (arg (by decide)) fun s _ =>
      .bind (Meets.checked (blames_expectBitVec s)).discard fun _ _ =>
      .pure _
  | extension =>
    exact .bind (arg (by decide)) fun s _ => .bind (.checked (blames_expectBitVec s)) fun w _ =>
      .bind (idx (by decide)) fun i _ => .map (.checked (blames_widthOrTooWide _)) _
  | bitsOfNumber =>
    exact .bind (arg (by decide)) fun s _ => .bind (.checked (blames_expectSame .int s)) fun _ _ =>
      .bind (idx (by decide)) fun _ _ => .pure _
  | reading =>
    exact .bind (arg (by decide)) fun s _ => .bind (.checked (blames_expectArray s)) fun p _ =>
      .bind (arg (by decide)) fun t _ =>
        .bind (.checked (blames_expectSame p.1 t)) fun _ _ => .pure _
  | writing =>
    exact .bind (arg (by decide)) fun s _ => .bind (.checked (blames_expectArray s)) fun p _ =>
      .bind (arg (by decide)) fun t _ => .bind (.checked (blames_expectSame p.1 t)) fun _ _ =>
        .bind (arg (by decide)) fun u _ =>
          .bind (.checked (blames_expectSame p.2 u)) fun _ _ => .pure _
  | quantification =>
    obtain ⟨s, rest, rfl⟩ := front (by decide)
    exact .bind (meets_argument (Nat.lt_succ_self rest.length)) fun s _ =>
      .bind (.checked (blames_expectBool s)) fun _ _ => .pure _

/-- Nothing goes wrong in the computation of a sort, and it blames the request if it refuses. -/
theorem meets_resultSort (op : Op) (args : List LogicSort) :
    Meets (resultSort op args) (op.resultSort args) := by
  unfold resultSort Op.resultSort
  by_cases formed : op.isWellFormed = true
  · rw [formed, Bool.not_true, if_neg Bool.false_ne_true, if_neg Bool.false_ne_true]
    by_cases admitted : op.prim.arity.admits args.length = true
    · rw [admitted, Bool.not_true, if_neg Bool.false_ne_true, if_neg Bool.false_ne_true]
      obtain ⟨arguments, indices⟩ := op.prim.provides
      have count : op.indexCount = op.prim.indexCount := of_decide_eq_true formed
      exact meets_sortBySignature op args _
        (Nat.le_trans arguments (Arity.least_le_of_admits admitted)) (count ▸ indices)
    · rw [Bool.not_eq_true] at admitted
      rw [admitted]
      exact .throw rfl
  · rw [Bool.not_eq_true] at formed
    rw [formed]
    exact .throw rfl

end Guarded

end FormulaGraph
