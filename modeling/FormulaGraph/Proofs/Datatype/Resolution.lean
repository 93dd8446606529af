import FormulaGraph.Enumeration.Enumerator
import FormulaGraph.Proofs.Concur
import FormulaGraph.Proofs.Datatype.Parameters

/-!
Which declarations reach an engine. A solver goes by the flags of the selectors, and these tell how
a selector was added, not what its sort mentions. So a declaration that is passed on is free of
forward references just if none of the selectors that were added as settled mentioned one.
-/

namespace FormulaGraph

/-- No forward reference occurs in the sort, at any depth. -/
def LogicSort.Resolved (sort : LogicSort) :
    Prop := ∀ name, ¬ (LogicSort.unresolved name).OccursIn sort

theorem LogicSort.resolved_datatype (name : String) : (LogicSort.datatype name).Resolved := by
  intro reference occurs
  cases (LogicSort.occursIn_iff_eq rfl).mp occurs

namespace DatatypeDecl

open FormulaGraph.Action

variable {name constr : String} {s : Selector} {sort : LogicSort} {steps later : List Step}

/-- Whatever is given in the course is the datatype itself. -/
def GivenItself (name : String) (steps : List Step) :
    Prop := ∀ sort, .finalize sort ∈ steps → sort = .datatype name

/-- Nothing that was added as settled mentions a forward reference. -/
def BroughtResolved (name : String) (steps : List Step) : Prop :=
  ∀ constr s later, Added { name } steps constr s later → s.finalized = true → s.sort.Resolved

/-- No selector mentions a forward reference. -/
def Resolved (d : DatatypeDecl) : Prop := ∀ constr s, d.Holds constr s → s.sort.Resolved

/-- Once all is settled, a selector has the datatype for its sort, or came as it is. -/
theorem GivenItself.origin (own : GivenItself name steps)
    (held : (ofSteps name steps).Holds constr s) (final : s.finalized = true) :
    s.sort = .datatype name ∨ ∃ later, Added { name } steps constr s later := by
  obtain ⟨s₀, later, added, rfl⟩ := holds_ofSteps_iff.mp held
  cases came : s₀.finalized with
  | true =>
    rw [Selector.settled_of_finalized came]
    exact .inr ⟨later, added⟩
  | false =>
    cases given : firstGiven later with
    | none =>
      rw [given, Selector.settled_none, came] at final
      cases final
    | some sort =>
      rw [Selector.settled_some came, own sort (added.subset (mem_of_firstGiven given))]
      exact .inl rfl

theorem GivenItself.holds_iff (own : GivenItself name steps)
    (final : (ofSteps name steps).isFinalized = true)
    (mentions : ¬ s.sort.Resolved) : (ofSteps name steps).Holds constr s ↔
      s.finalized = true ∧ ∃ later, Added { name } steps constr s later := by
  constructor
  · intro held
    have settled := isFinalized_iff.mp final constr s held
    refine ⟨settled, (own.origin held settled).resolve_left fun itself => mentions ?_⟩
    rw [itself]
    exact LogicSort.resolved_datatype name
  · rintro ⟨settled, later, added⟩
    exact holds_ofSteps_iff.mpr ⟨s, later, added, (Selector.settled_of_finalized settled _).symm⟩

theorem GivenItself.resolved_iff (own : GivenItself name steps)
    (final : (ofSteps name steps).isFinalized = true) :
    (ofSteps name steps).Resolved ↔ BroughtResolved name steps := by
  constructor
  · intro resolved constr s later added settled
    by_contra mentions
    exact mentions (resolved constr s ((own.holds_iff final mentions).mpr ⟨settled, later, added⟩))
  · intro brought constr s held
    by_contra mentions
    obtain ⟨settled, later, added⟩ := (own.holds_iff final mentions).mp held
    exact mentions (brought constr s later added settled)

end DatatypeDecl

namespace Solver

open FormulaGraph.Action

variable {σ S T : Type} [BEq T] [Hashable T] [Engine σ S T] {d : DatatypeDecl}

theorem makeDatatypeSort_refused (pending : d.isFinalized = false) (solver : Solver σ S T) :
    makeDatatypeSort d solver = .error (.usage (.unfinalized d.name)) solver := by
  rw [makeDatatypeSort, pending]
  rfl

theorem outcome_declare {solver : Solver σ S T} {name : String}
    (new : solver.session.declared.contains name = false) (sort : LogicSort) (make : Action σ S) :
    (declare name sort make).outcome solver = (make.outcome solver.engine).map fun _ => sort := by
  rw [outcome_congr (declare_new new sort make)]
  cases called : make solver.engine with
  | ok made e =>
    obtain ⟨notices, done⟩ := onEngine_of_ok called
    rw [outcome_ok called, outcome_congr (bind_ok done)]
    rfl
  | error x e =>
    obtain ⟨notices, failed⟩ := onEngine_of_error called
    rw [outcome_error called, outcome_error (bind_error failed)]
    rfl

/-- A declaration whose selectors are settled is passed on if its name is new, and it is for the
engine to say. -/
theorem makeDatatypeSort_passed (final : d.isFinalized = true) {solver : Solver σ S T}
    (new : solver.session.declared.contains d.name = false) :
    (makeDatatypeSort d).outcome solver =
      ((Engine.makeDatatypeSort d).outcome solver.engine).map fun _ : S => .datatype d.name := by
  rw [makeDatatypeSort, final]
  exact outcome_declare new _ _

end Solver

namespace DatatypeDecl

open FormulaGraph.Action

variable {σ S T : Type} [BEq T] [Hashable T] [Engine σ S T]

/-- If nothing but the datatype itself is ever given to its selectors, then as soon as all are
settled the selectors that mention a forward reference are those that came with it as settled, so
that there are none if none came so. A solver passes a declaration under a new name on to its engine
as soon as all selectors are settled, and no sooner. -/
theorem passed_on_resolved {name : String} {steps : List Step} (own : GivenItself name steps)
    (solver : Solver σ S T) :
    ((ofSteps name steps).isFinalized = true →
      (∀ constr s, ¬ s.sort.Resolved → ((ofSteps name steps).Holds constr s ↔
        s.finalized = true ∧ ∃ later, Added { name } steps constr s later)) ∧
      ((ofSteps name steps).Resolved ↔ BroughtResolved name steps) ∧
      (solver.session.declared.contains name = false →
        (Solver.makeDatatypeSort (ofSteps name steps)).outcome solver =
          ((Engine.makeDatatypeSort (ofSteps name steps)).outcome solver.engine).map fun _ : S =>
            .datatype name)) ∧
    ((ofSteps name steps).isFinalized = false →
      Solver.makeDatatypeSort (ofSteps name steps) solver =
        .error (.usage (.unfinalized name)) solver) := by
  have named := name_ofSteps name steps
  constructor
  · intro final
    refine ⟨fun constr s mentions =>
      own.holds_iff final mentions, own.resolved_iff final, fun new => ?_⟩
    rw [Solver.makeDatatypeSort_passed final (named.symm ▸ new), named]
  · intro pending
    rw [Solver.makeDatatypeSort_refused pending, named]

/-- Lists of anything, whose tails are lists. -/
def list : List Step :=
  [.constructor "nil" [], .constructor "cons"
    [.selector "head" (.param "T"), .selectorSelf "tail" "list"], .finalize (.datatype "list")]

theorem givenItself_list : GivenItself "list" list := by
  intro sort given
  simpa [list] using given

theorem broughtResolved_list : BroughtResolved "list" list := by
  intro constr s later added settled
  have param : ∀ step ∈ list, ∀ offer ∈ step.offers, offer.2.finalized = true →
    offer.2.sort = .param "T" := by decide
  obtain ⟨step, mem, offered⟩ := added.offered
  intro reference occurs
  rw [param step mem _ offered settled] at occurs
  cases (LogicSort.occursIn_iff_eq rfl).mp occurs

/-- Lists are passed on without a forward reference. -/
theorem passed_on_resolved_list :
    GivenItself "list" list ∧ (ofSteps "list" list).isFinalized = true ∧
    (ofSteps "list" list).Resolved ∧
    (Solver.makeDatatypeSort (ofSteps "list" list)).outcome
      (Solver.new (Enumerator.new "m") {} : Solver Enumerator LogicSort Handle) =
        .ok (.datatype "list") := by
  have final : (ofSteps "list" list).isFinalized = true := by decide
  obtain ⟨-, resolved, passed⟩ :=
    (passed_on_resolved givenItself_list (Solver.new (Enumerator.new "m") {})).1 final
  exact ⟨givenItself_list, final, resolved.mpr broughtResolved_list,
    passed Std.HashSet.contains_empty⟩

/-- A forward reference that is added as settled is passed on. -/
theorem reference_passed_on :
    GivenItself "d" [.constructor "c" [.selector "x" (.unresolved "d")]] ∧
      (ofSteps "d" [.constructor "c" [.selector "x" (.unresolved "d")]]).isFinalized = true ∧
      ¬ (ofSteps "d" [.constructor "c" [.selector "x" (.unresolved "d")]]).Resolved ∧
      (Solver.makeDatatypeSort
        (ofSteps "d" [.constructor "c" [.selector "x" (.unresolved "d")]])).outcome
        (Solver.new (Enumerator.new "m") {} : Solver Enumerator LogicSort Handle) =
          .ok (.datatype "d") := by
  refine ⟨fun sort given => ?_, by decide, fun resolved => ?_, ?_⟩
  · cases List.mem_singleton.mp given
  · exact resolved "c" ⟨"x", .unresolved "d", true⟩ ⟨⟨"c", [⟨"x", .unresolved "d", true⟩]⟩,
      List.mem_singleton_self _, rfl, List.mem_singleton_self _⟩ "d" .here
  · exact Solver.makeDatatypeSort_passed (by decide) Std.HashSet.contains_empty

end DatatypeDecl

end FormulaGraph
