import FormulaGraph.Proofs.Solver.Making
import FormulaGraph.Proofs.Solver.StackedReads

/-!
A solver on top of another cannot be told apart from a solver that works on the engine directly. The
two are not coupled themselves: between them there is a third, which works on the engine directly
under the identifiers of the one on top.
-/

namespace FormulaGraph

theorem Capabilities.insert_again (c : Capabilities) (flag other : Capability) :
    (((c.insert flag).insert other).insert flag).insert other = (c.insert flag).insert other := by
  simp only [Capabilities.insert, Capabilities.mk.injEq]
  ext i hi
  simp only [BitVec.getElem_or]
  grind

namespace Solver

open FormulaGraph.Action

variable {α : Type} {N N' : Naming} {n : Stacked} {m m' : Direct} {t t' : Term} {ts ts' : List Term}

/-- The solver that works directly on the engine is coupled with one that is on one level with the
stacked one. -/
def Stacks (N : Naming) (n : Stacked) (m' : Direct) : Prop :=
  ∃ m, Level n m ∧ m.Coherent Enumerator.contract ∧ Coupled N m m'

theorem Level.has (level : Level n m) : m.session.Has t ↔ n.session.Has t := by
  rw [Session.Has, Session.Has, level.sessions.table]

theorem Level.genuine (level : Level n m) (genuine : m.session.Genuine t) : n.session.Genuine t :=
  fun a occurs own => level.has.mp (genuine a occurs (own.trans level.sessions.number.symm))

theorem Level.pair (level : Level n m) (known : m.session.Has t) (renamed : t.Renamed N t') :
    Vocabulary.proper.Pair N t t' :=
  ⟨renamed, level.sessions.proper t (level.has.mp known)⟩

/-- What is answered alike on one level, and then by coupled solvers, is answered alike. -/
theorem Stacks.agree {act : Action Direct α} {known : α → Direct → Prop}
    {post post' : Naming → α → α → Prop}
    {r : EStateM.Result Error Stacked α} {r' : EStateM.Result Error Direct α}
    (alike : Level.Alike r (act m)) (keeps : Keeps Enumerator.contract act m known)
    (agree : Agree Coupled N post (act m) r')
    (told : ∀ N' a a' n m, Level n m → known a m → post N' a a' → post' N' a a') :
    Agree Stacks N post' r r' := by
  generalize run : act m = middle at alike agree
  cases agree with
  | ok extension coupled holds =>
    cases alike with
    | ok level same =>
      obtain ⟨kept, known⟩ := keeps.answer run
      subst same
      exact .ok extension ⟨_, level, kept.coherent, coupled⟩ (told _ _ _ _ _ level known holds)
  | error extension coupled same =>
    cases alike with
    | error e level =>
      exact .error extension ⟨_, level, (keeps.failure run).1.coherent, coupled⟩ same

theorem Stacks.same {act : Action Direct α} {known : α → Direct → Prop}
    {r : EStateM.Result Error Stacked α}
    {r' : EStateM.Result Error Direct α} (alike : Level.Alike r (act m))
    (keeps : Keeps Enumerator.contract act m known) (agree : Agree Coupled N Same (act m) r') :
    Agree Stacks N Same r r' :=
  Stacks.agree alike keeps agree fun _ _ _ _ _ _ _ same => same

theorem Stacks.term {act : Action Direct Term} {r : EStateM.Result Error Stacked Term}
    {r' : EStateM.Result Error Direct Term} (alike : Level.Alike r (act m))
    (keeps : Keeps Enumerator.contract act m fun t m => m.session.Has t)
    (agree : AgreeTerm N (act m) r') :
    Agree Stacks N Vocabulary.proper.Pair r r' :=
  Stacks.agree alike keeps agree fun _ _ _ _ _ level known renamed => level.pair known renamed

section Requests

open Enumerator (contract contract_honoured)

theorem Stacks.capabilities (related : Stacks N n m') :
    Engine.capabilities m' = Engine.capabilities n := by
  obtain ⟨m, level, -, coupled⟩ := related
  show (m'.engine.capabilities.insert .logging).insert .termIteration =
    (((n.engine.engine.capabilities.insert .logging).insert .termIteration).insert .logging).insert
      .termIteration
  rw [coupled.engine, level.engine, Capabilities.insert_again]

theorem Stacks.hasSort (related : Stacks N n m') (sort : LogicSort) :
    m'.session.hasSort sort = n.session.hasSort sort := by
  obtain ⟨m, level, -, coupled⟩ := related
  have known (sort : LogicSort) :
      m'.session.sorts.contains sort = n.session.sorts.contains sort := by
    rw [coupled.session.sorts, Std.HashMap.contains_eq_isSome_getElem?,
      (level.sessions.sorts sort).2, Std.HashMap.contains_eq_isSome_getElem?]
  unfold Session.hasSort
  cases sort
  case uninterpreted | datatype => exact known _
  all_goals rfl

theorem Stacks.symbols (related : Stacks N n m') (name : String) :
    Option.Rel (Vocabulary.proper.Pair N) n.session.symbols[name]? m'.session.symbols[name]? := by
  obtain ⟨m, level, coherent, coupled⟩ := related
  have has := coherent.canonical.symbols name
  have known := coupled.session.symbols name
  rw [← level.sessions.symbols]
  generalize m.session.symbols[name]? = found, m'.session.symbols[name]? = found' at has known
  cases known with
  | none => exact .none
  | some renamed => exact .some (level.pair ((has _).mp rfl).1 renamed)

theorem Stacks.pass {act : Action Enumerator α} (related : Stacks N n m')
    (aside : contract.Aside act) :
    Agree Stacks N Same (onEngine (onEngine act) n) (onEngine act m') := by
  obtain ⟨m, level, coherent, coupled⟩ := related
  exact Stacks.same (level.pass act) (keeps_aside contract_honoured coherent aside)
    (coupled.onEngine act)

theorem Stacks.genuine (related : Stacks N n m') (pair : Vocabulary.proper.Pair N t t') :
    n.session.Genuine t := by
  obtain ⟨m, level, -, coupled⟩ := related
  exact level.genuine (coupled.session.genuine pair.renamed)

theorem Stacks.makeArraySort {index element : LogicSort} (related : Stacks N n m')
    (ofIndex : index.Proper) (ofElement : element.Proper) :
    Agree Stacks N Same (Solver.makeArraySort index element n)
      (Solver.makeArraySort index element m') := by
  obtain ⟨m, level, coherent, coupled⟩ := related
  exact Stacks.same (level.withNative (.array ofIndex ofElement))
    (keeps_withNative contract_honoured coherent _)
    (coupled.withNative _)

theorem Stacks.getArrayValues (related : Stacks N n m') (pair : Vocabulary.proper.Pair N t t') :
    Agree Stacks N (fun N => ArrayModel.Alike (Vocabulary.proper.Pair N))
      (Solver.getArrayValues t n)
      (Solver.getArrayValues t' m') := by
  have genuine := related.genuine pair
  obtain ⟨m, level, coherent, coupled⟩ := related
  refine Stacks.agree (level.getArrayValues coherent genuine)
    (keeps_getArrayValues contract_honoured coherent (coupled.session.genuine pair.renamed))
    (coupled.getArrayValues pair.renamed) fun N raw raw' n m level known alike => ?_
  obtain ⟨_, _⟩ := raw
  obtain ⟨_, _⟩ := raw'
  obtain ⟨ofBase, ofCells⟩ := known
  obtain ⟨base, cells⟩ := alike
  refine ⟨?_, ?_⟩
  · cases base with
    | none => exact .none
    | some renamed => exact .some (level.pair (ofBase _ rfl) renamed)
  · refine List.forall₂_iff_zip.mpr ⟨cells.length_eq, fun {p p'} place => ?_⟩
    have renamed := List.forall₂_zip cells place
    have known := ofCells p (List.of_mem_zip place).1
    exact ⟨level.pair known.1 renamed.1, level.pair known.2 renamed.2⟩

theorem Stacks.getUnsatCore (related : Stacks N n m') :
    Agree Stacks N (fun N => List.Forall₂ (Vocabulary.proper.Pair N)) (Solver.getUnsatCore n)
      (Solver.getUnsatCore m') := by
  obtain ⟨m, level, coherent, coupled⟩ := related
  refine Stacks.agree level.getUnsatCore (keeps_getUnsatCore contract_honoured coherent)
    coupled.getUnsatCore fun N ts ts' n m level known renamed => ?_
  refine List.forall₂_iff_zip.mpr ⟨renamed.length_eq, fun {t t'} place => ?_⟩
  exact level.pair (known t (List.of_mem_zip place).1) (List.forall₂_zip renamed place)

theorem Stacks.reset (related : Stacks N n m') :
    Agree Stacks N Same (Solver.reset n) (Solver.reset m') := by
  obtain ⟨m, level, coherent, coupled⟩ := related
  have ends := coherent_reset contract_honoured coherent
  have alike := level.reset
  have agree := coupled.reset
  generalize Solver.reset m = middle at ends alike agree
  cases agree with
  | ok extension coupled same =>
    cases alike with
    | ok level same' => exact .ok extension ⟨_, level, ends.1, coupled⟩ (same.trans same')

end Requests

end Solver

end FormulaGraph
