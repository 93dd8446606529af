import FormulaGraph.Proofs.Error

/-!
Computations with what must not happen in them made visible: reading what was not given, an
operation on words whose result is not the number that is meant, a loop without end. A computation
meets a result if it gives it and nothing of this happens.
-/

namespace FormulaGraph

/-- What must not happen in a computation, whatever it is asked. -/
inductive Fault where
  /-- An argument is read that was not given. -/
  | argument (position : Nat)
  | index (position : Nat)
  /-- The result of an operation is out of range. -/
  | wraps
  | divisionByZero
  /-- A loop goes on after as many rounds as it was allowed. -/
  | unending

/-- A computation that may refuse, and that may go wrong. -/
abbrev Guarded (α : Type) := ExceptT Error (Except Fault) α

namespace Guarded

variable {α β : Type}

/-- A computation in which nothing can go wrong. -/
def checked (r : Except Error α) : Guarded α := ExceptT.mk (.ok r)

def fault (f : Fault) : Guarded α := ExceptT.mk (.error f)

/-- The error blames the request. -/
def Blames (e : Error) : Prop := e.kind = .usage

/-- The computation has this result: nothing goes wrong, and a refusal blames the request. -/
structure Meets (x : Guarded α) (r : Except Error α) : Prop where
  eq : x = checked r
  blames : FailsOnly Blames r

namespace Meets

variable {x : Guarded α} {r : Except Error α} {e : Error}

theorem pure (a : α) : Meets (Pure.pure a) (Pure.pure a) := ⟨rfl, .pure a⟩

theorem throw (blames : Blames e) : Meets (MonadExcept.throw e : Guarded α) (MonadExcept.throw e) :=
  ⟨rfl, .error blames⟩

theorem checked (blames : FailsOnly Blames r) : Meets (Guarded.checked r) r := ⟨rfl, blames⟩

theorem bind {f : α → Guarded β} {g : α → Except Error β} (first : Meets x r)
    (rest : ∀ a, r = .ok a → Meets (f a) (g a)) : Meets (x >>= f) (r >>= g) := by
  rw [first.eq]
  cases h : r with
  | ok a => exact rest a h
  | error e => exact ⟨rfl, .error (first.blames e h)⟩

theorem map (meets : Meets x r) (f : α → β) : Meets (f <$> x) (f <$> r) := by
  refine ⟨?_, meets.blames.map f⟩
  rw [meets.eq]
  cases r <;> rfl

theorem discard (meets : Meets x r) : Meets (Functor.discard x) (Functor.discard r) := meets.map _

theorem guard {p q : Prop} [Decidable p] [Decidable q] {rest : PUnit → Guarded α}
    {rest' : PUnit → Except Error α} (same : p ↔ q) (blames : Blames e)
    (passed : ¬q → Meets (rest ⟨⟩) (rest' ⟨⟩)) :
    Meets (if p then MonadExcept.throw e >>= rest else rest ⟨⟩)
      (if q then MonadExcept.throw e >>= rest' else rest' ⟨⟩) := by
  by_cases h : q
  · rw [if_pos h, if_pos (same.mpr h)]
    exact bind (throw blames) fun _ failed => by cases failed
  · rw [if_neg h, if_neg fun h' => h (same.mp h')]
    exact passed h

end Meets

end Guarded

end FormulaGraph
