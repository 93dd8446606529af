import FormulaGraph.Proofs.Memo
import FormulaGraph.SortArbiter

/-!
The arbiter of sorts remembers nothing but what is derived, and settles on a derived sort wherever
there is one. What is derived is the same whatever a table of derivations forgets; the arbiter's own
table is one of those.
-/

namespace FormulaGraph

/-- An application to arguments of these sorts may have this sort, as it is the derived one or none
is derived. -/
def Op.Gives (op : Op) (args : List LogicSort) (sort : LogicSort) : Prop :=
  op.resultSort args = .ok (some sort) ∨ op.resultSort args = .ok none

namespace SortArbiter

variable {a a' : SortArbiter} {op : Op} {args : List LogicSort}

/-- What is remembered is what would be derived. -/
def Faithful (a : SortArbiter) : Prop :=
  ∀ (op : Op) (args : List LogicSort) (sort : Option LogicSort),
    a.memo[(op, args)]? = some sort → op.resultSort args = .ok sort

theorem Faithful.of_empty (empty : a.memo = {}) : a.Faithful := by
  intro op args sort found
  simp [empty] at found

/-- What is found at a key was remembered there now, or before and at no other key since. -/
theorem found_remember {key : Op × List LogicSort} {sort sort' : Option LogicSort}
    (found : (a.remember op args sort).memo[key]? = some sort') :
    (op, args) = key ∧ sort = sort' ∨ (op, args) ≠ key ∧ a.memo[key]? = some sort' := by
  have there : ((a.memo.insert (op, args) sort).filter fun key _ => !a.evicts a.entered key)[key]? =
      some sort' := found
  rw [Std.HashMap.getElem?_filter'] at there
  obtain ⟨there, -⟩ := Option.filter_eq_some_iff.mp there
  rw [Std.HashMap.getElem?_insert] at there
  split at there
  · rename_i same
    cases there
    exact .inl ⟨eq_of_beq same, rfl⟩
  · rename_i other
    exact .inr ⟨fun same => other (beq_iff_eq.mpr same), there⟩

theorem Faithful.remember {sort : Option LogicSort} (faithful : a.Faithful)
    (derived : op.resultSort args = .ok sort) : (a.remember op args sort).Faithful := by
  intro op' args' sort' found
  obtain ⟨same, rfl⟩ | ⟨-, found⟩ := found_remember found
  · cases same
    exact derived
  · exact faithful op' args' sort' found

theorem derive_inv (op : Op) (args : List LogicSort) (a : SortArbiter) :
    (∃ sort, a.memo[(op, args)]? = some sort ∧ derive op args a = .ok sort a) ∨
    a.memo[(op, args)]? = none ∧
      ((∃ sort, op.resultSort args = .ok sort ∧
        derive op args a = .ok sort (a.remember op args sort)) ∨
        ∃ e, op.resultSort args = .error e ∧ derive op args a = .error e a) :=
  Memo.consult_cases (fun key : Op × List LogicSort => key.1.resultSort key.2) (op, args) a

theorem derive_ok {sort : Option LogicSort} (faithful : a.Faithful)
    (derived : derive op args a = .ok sort a') :
    op.resultSort args = .ok sort ∧ a'.Faithful ∧ a'.aliasing = a.aliasing := by
  obtain ⟨sort', found, run⟩ | ⟨-, ⟨sort', result, run⟩ | ⟨e, -, run⟩⟩ := derive_inv op args a
  · cases run.symm.trans derived
    exact ⟨faithful op args sort found, faithful, rfl⟩
  · cases run.symm.trans derived
    exact ⟨result, faithful.remember result, rfl⟩
  · cases run.symm.trans derived

theorem derive_error {e : Error} (failed : derive op args a = .error e a') :
    op.resultSort args = .error e ∧ a' = a := by
  obtain ⟨sort, -, run⟩ | ⟨-, ⟨sort, -, run⟩ | ⟨e', refused, run⟩⟩ := derive_inv op args a
  · cases run.symm.trans failed
  · cases run.symm.trans failed
  · cases run.symm.trans failed
    exact ⟨refused, rfl⟩

/-- Whatever is remembered, a derivation ends as it would without. -/
theorem derive_cases (faithful : a.Faithful) (op : Op) (args : List LogicSort) :
    (∃ sort a', derive op args a = .ok sort a' ∧ op.resultSort args = .ok sort ∧ a'.Faithful ∧
        a'.aliasing = a.aliasing) ∨
      ∃ e, derive op args a = .error e a ∧ op.resultSort args = .error e := by
  cases run : derive op args a with
  | ok sort a' => exact .inl ⟨sort, a', rfl, derive_ok faithful run⟩
  | error e a' =>
    obtain ⟨failed, rfl⟩ := derive_error run
    exact .inr ⟨e, rfl, failed⟩

theorem derive_both {b : SortArbiter} (faithful : a.Faithful) (faithful' : b.Faithful) (op : Op)
    (args : List LogicSort) :
    (∃ sort a' b', derive op args a = .ok sort a' ∧ derive op args b = .ok sort b' ∧
        op.resultSort args = .ok sort ∧ (a'.Faithful ∧ a'.aliasing = a.aliasing) ∧
        b'.Faithful ∧ b'.aliasing = b.aliasing) ∨
      ∃ e, derive op args a = .error e a ∧ derive op args b = .error e b := by
  obtain ⟨sort, a', run, derived, kept⟩ | ⟨e, run, failed⟩ := derive_cases faithful op args
  · obtain ⟨sort', b', run', derived', kept'⟩ | ⟨e, run', failed⟩ := derive_cases faithful' op args
    · cases derived.symm.trans derived'
      exact .inl ⟨sort, a', b', run, run', derived, kept, kept'⟩
    · cases derived.symm.trans failed
  · obtain ⟨sort, b', run', derived, -⟩ | ⟨e', run', failed'⟩ := derive_cases faithful' op args
    · cases failed.symm.trans derived
    · cases failed.symm.trans failed'
      exact .inr ⟨e, run, run'⟩

/-- The arbiter's own memo, whatever it drops, has at a key what was remembered there last. -/
theorem truthful_of_empty (empty : a.memo = {}) : Memo.Truthful a := by
  intro a' told key sort course found
  induction course with
  | start =>
    have found : a.memo[key]? = some sort := found
    simp [empty] at found
  | asked course key ih => exact ih found
  | @told a' told course key' sort' ih =>
    have found : (a'.remember key'.1 key'.2 sort').memo[key]? = some sort := found
    rw [List.lookup_cons]
    obtain ⟨rfl, rfl⟩ | ⟨other, found⟩ := found_remember found
    · rw [beq_self_eq_true]
    · rw [beq_eq_false_iff_ne.mpr fun same => other same.symm]
      exact ih found

/-- Derivations that are asked for one after the other, whether they succeed or are refused, are
those of the operators, on every table of derivations that has at a key what it was told there last,
or nothing. -/
theorem derivations_exact {μ : Type} [Memo μ (Op × List LogicSort) (Option LogicSort)] {start : μ}
    (truthful : Memo.Truthful start) (calls : List (Op × List LogicSort)) :
    Action.outcomes (calls.map fun call => derive call.1 call.2) start =
      calls.map fun call => call.1.resultSort call.2 :=
  Memo.faithful_start.outcomes truthful calls

/-- A product derived twice, then one of too few factors, and a constructor of which only an engine
knows the sort. -/
theorem derivations_exact_product :
    Memo.Truthful ({ aliasing := false } : SortArbiter) ∧
    Action.outcomes
        [derive ⟨.bvMul, .none⟩ [.bitVec 4, .bitVec 4],
          derive ⟨.bvMul, .none⟩ [.bitVec 4, .bitVec 4],
          derive ⟨.bvMul, .none⟩ [.bitVec 4], derive ⟨.applyConstructor, .none⟩ []]
        ({ aliasing := false } : SortArbiter) =
      [.ok (some (.bitVec 4)), .ok (some (.bitVec 4)),
        .error (.arity ⟨.bvMul, .none⟩ "at least 2" 1), .ok none] := by
  have truthful : Memo.Truthful ({ aliasing := false } : SortArbiter) := truthful_of_empty rfl
  have exact := derivations_exact truthful
    [(⟨.bvMul, .none⟩, [.bitVec 4, .bitVec 4]), (⟨.bvMul, .none⟩, [.bitVec 4, .bitVec 4]),
      (⟨.bvMul, .none⟩, [.bitVec 4]), (⟨.applyConstructor, .none⟩, [])]
  exact ⟨truthful, exact⟩

theorem reconcile_some (a : SortArbiter) (op : Op) (sort reported : LogicSort) :
    (a.reconcile op (some sort) reported).1 = sort := by
  unfold reconcile
  dsimp only
  split
  · rfl
  · split <;> rfl

theorem gives_reconcile {derived : Option LogicSort} (result : op.resultSort args = .ok derived)
    (a : SortArbiter) (reported : LogicSort) :
    op.Gives args (a.reconcile op derived reported).1 := by
  cases derived with
  | none => exact .inr result
  | some sort =>
    rw [reconcile_some]
    exact .inl result

end SortArbiter

end FormulaGraph
