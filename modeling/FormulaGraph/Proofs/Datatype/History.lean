import FormulaGraph.Proofs.Datatype.Changes

/-!
The books of a declaration, over any course of edits and finalizations, accepted or rejected. Names
are told apart, nothing that was accepted is lost or changes its place, and a selector that came
without its sort has it from the first finalization after it came.
-/

namespace FormulaGraph

namespace ConstructorDecl

theorem Reached.after {c : ConstructorDecl} (reached : c.Reached) (edits : List Edit) :
    (c.after edits).Reached := by
  induction edits generalizing c with
  | nil => exact reached
  | cons edit rest ih => exact ih (reached.edited edit)

/-- The constructors that can be reached are those that edits lead to. -/
theorem reached_iff {c : ConstructorDecl} : c.Reached ↔ ∃ name edits, c = ofEdits name edits := by
  constructor
  · intro reached
    induction reached with
    | new name => exact ⟨name, [], rfl⟩
    | edited edit _ ih =>
      obtain ⟨name, edits, rfl⟩ := ih
      exact ⟨name, edits ++ [edit], (ofEdits_append name edits [edit]).symm⟩
  · rintro ⟨name, edits, rfl⟩
    exact Reached.after (.new name) edits

/-- The books of a constructor: selectors are told apart by their names and stay where they are,
whatever comes after, with the sorts that they have or that are given first; and one that is offered
is accepted just if it is new, and then comes last. -/
structure Kept (name : String) (edits more : List Edit) : Prop where
  distinct : (ofEdits name edits).Distinct
  grows : Grows (firstGiven more) (ofEdits name edits) (ofEdits name (edits ++ more))
  accepted : ∀ (edit : Edit) (s : Selector), edit.offer? = some s →
    ¬ (ofEdits name edits).Has s.name →
    edit.perform (ofEdits name edits) = .ok () ((ofEdits name edits).append s)
  rejected : ∀ (edit : Edit) (s : Selector), edit.offer? = some s →
    (ofEdits name edits).Has s.name →
    edit.perform (ofEdits name edits) = .error (.duplicate .selector s.name) (ofEdits name edits)

theorem kept (name : String) (edits more : List Edit) : Kept name edits more where
  distinct := distinct_ofEdits name edits
  grows := by
    rw [ofEdits_append]
    exact grows_after more _
  accepted _ _ offers new := perform_of_offer offers ▸ push_of_new new
  rejected _ _ offers old := perform_of_offer offers ▸ push_of_has old

end ConstructorDecl

namespace DatatypeDecl

/-- The declaration after some more steps, whether they are accepted or rejected. -/
def after (d : DatatypeDecl) (steps : List Step) : DatatypeDecl :=
  steps.foldl (fun d step => step.perform.finalState d) d

/-- The declaration that steps lead to. -/
def ofSteps (name : String) (steps : List Step) : DatatypeDecl := after { name } steps

/-- The sort that is given first. -/
def firstGiven (steps : List Step) : Option LogicSort := steps.findSome? Step.given?

/-- At some point of the course the property holds of the declaration there, the step taken there,
and those to come. -/
def Sometime (P : DatatypeDecl → Step → List Step → Prop) (d : DatatypeDecl)
    (steps : List Step) : Prop :=
  ∃ earlier step later, steps = earlier ++ step :: later ∧ P (d.after earlier) step later

/-- One of the steps adds the selector to the constructor, and the later ones follow it. -/
def Added (d : DatatypeDecl) (steps : List Step) (constr : String) (s : Selector)
    (later : List Step) : Prop :=
  Sometime (fun d step rest => rest = later ∧ (constr, s) ∈ step.additions d) d steps

variable {d : DatatypeDecl} {step : Step} {name constr : String} {s : Selector}

theorem after_nil (d : DatatypeDecl) : d.after [] = d := rfl

theorem after_cons (d : DatatypeDecl) (step : Step) (rest : List Step) :
    d.after (step :: rest) = (step.perform.finalState d).after rest :=
  rfl

theorem firstGiven_cons (step : Step) (rest : List Step) :
    firstGiven (step :: rest) = step.given?.or (firstGiven rest) := by
  rw [firstGiven, List.findSome?_cons]
  cases step.given? <;> rfl

theorem ofSteps_append (name : String) (steps more : List Step) :
    ofSteps name (steps ++ more) = (ofSteps name steps).after more :=
  List.foldl_append

theorem ofSteps_concat (name : String) (steps : List Step) (step : Step) :
    ofSteps name (steps ++ [step]) = step.perform.finalState (ofSteps name steps) :=
  ofSteps_append name steps [step]

theorem Distinct.after (distinct : d.Distinct) (steps : List Step) : (d.after steps).Distinct := by
  induction steps generalizing d with
  | nil => exact distinct
  | cons step rest ih => exact ih ((change distinct step).distinct distinct)

theorem Distinct.fromEdits_after (distinct : d.Distinct) (made : d.FromEdits) (steps : List Step) :
    (d.after steps).FromEdits := by
  induction steps generalizing d with
  | nil => exact made
  | cons step rest ih =>
    have first := change distinct step
    exact ih (first.distinct distinct) (first.fromEdits made)

theorem distinct_new (name : String) : Distinct { name } :=
  ⟨List.nodup_nil, fun _ mem => absurd mem List.not_mem_nil, List.nodup_nil⟩

theorem distinct_ofSteps (name : String) (steps : List Step) : (ofSteps name steps).Distinct :=
  (distinct_new name).after steps

theorem Distinct.grows_after (distinct : d.Distinct) (steps : List Step) :
    Grows (firstGiven steps) d (d.after steps) := by
  induction steps generalizing d with
  | nil => exact .refl d
  | cons step rest ih =>
    rw [firstGiven_cons]
    have first := change distinct step
    exact first.grows.trans (ih (first.distinct distinct))

theorem name_ofSteps (name : String) (steps : List Step) : (ofSteps name steps).name = name :=
  ((distinct_new name).grows_after steps).name

theorem not_sometime_nil {P : DatatypeDecl → Step → List Step → Prop} : ¬ Sometime P d [] := by
  rintro ⟨earlier, step, later, split, -⟩
  cases earlier <;> cases split

theorem sometime_cons_iff {P : DatatypeDecl → Step → List Step → Prop} {rest : List Step} :
    Sometime P d (step :: rest) ↔ P d step rest ∨ Sometime P (step.perform.finalState d) rest := by
  constructor
  · rintro ⟨earlier, taken, later, split, holds⟩
    cases earlier with
    | nil =>
      cases split
      exact .inl holds
    | cons first earlier =>
      cases split
      exact .inr ⟨earlier, taken, later, rfl, holds⟩
  · rintro (holds | ⟨earlier, taken, later, rfl, holds⟩)
    · exact ⟨[], step, rest, rfl, holds⟩
    · exact ⟨step :: earlier, taken, later, rfl, holds⟩

theorem added_cons_iff {rest later : List Step} :
    Added d (step :: rest) constr s later ↔
      (rest = later ∧ (constr, s) ∈ step.additions d) ∨
        Added (step.perform.finalState d) rest constr s later :=
  sometime_cons_iff

/-- What the constructors hold after some steps: what they held before and what was added, each
settled by the sort that was given first since then. -/
theorem Distinct.holds_after_iff {steps : List Step} (distinct : d.Distinct) :
    (d.after steps).Holds constr s ↔
      (∃ s₀, d.Holds constr s₀ ∧ s = s₀.settled (firstGiven steps)) ∨
        ∃ s₀ later, Added d steps constr s₀ later ∧ s = s₀.settled (firstGiven later) := by
  -- The induction goes from the first step on: what the first step adds is settled by the rest of
  -- the course, as is what was there before it.
  induction steps generalizing d with
  | nil =>
    have none_added : ∀ s₀ later, ¬ Added d [] constr s₀ later := fun _ _ => not_sometime_nil
    simp [after_nil, none_added, firstGiven]
  | cons step rest ih =>
    have first := change distinct step
    have settled : ∀ s₀ : Selector, (s₀.settled step.given?).settled (firstGiven rest) =
        s₀.settled (firstGiven (step :: rest)) := fun s₀ => by
      rw [Selector.settled_settled, firstGiven_cons]
    rw [after_cons, ih (first.distinct distinct)]
    constructor
    · rintro (⟨s₁, held, rfl⟩ | ⟨s₀, later, added, rfl⟩)
      · obtain ⟨s₀, before, rfl⟩ | mem := first.holds_iff.mp held
        · exact .inl ⟨s₀, before, settled s₀⟩
        · exact .inr ⟨s₁, rest, added_cons_iff.mpr (.inl ⟨rfl, mem⟩), rfl⟩
      · exact .inr ⟨s₀, later, added_cons_iff.mpr (.inr added), rfl⟩
    · rintro (⟨s₀, held, rfl⟩ | ⟨s₀, later, added, rfl⟩)
      · exact .inl ⟨_, first.holds_iff.mpr (.inl ⟨s₀, held, rfl⟩), (settled s₀).symm⟩
      · obtain ⟨rfl, mem⟩ | added := added_cons_iff.mp added
        · exact .inl ⟨s₀, first.holds_iff.mpr (.inr mem), rfl⟩
        · exact .inr ⟨s₀, later, added, rfl⟩

theorem holds_ofSteps_iff {steps : List Step} :
    (ofSteps name steps).Holds constr s ↔
      ∃ s₀ later, Added { name } steps constr s₀ later ∧ s = s₀.settled (firstGiven later) := by
  rw [ofSteps, (distinct_new name).holds_after_iff]
  simp [Holds]

theorem isFinalized_iff : d.isFinalized = true ↔ ∀ constr s, d.Holds constr s →
    s.finalized = true := by
  simp only [isFinalized, List.all_eq_true]
  constructor
  · rintro final constr s ⟨c, hc, -, hs⟩
    exact final c hc s hs
  · intro final c hc s hs
    exact final c.name s ⟨c, hc, rfl, hs⟩

theorem isFinalized_ofSteps_iff {steps : List Step} : (ofSteps name steps).isFinalized = true ↔
    ∀ constr s later, Added { name } steps constr s later → firstGiven later = none →
      s.finalized = true := by
  rw [isFinalized_iff]
  constructor
  · intro final constr s later added notGiven
    exact Selector.finalized_settled_iff.mp
      (final constr _ (holds_ofSteps_iff.mpr ⟨s, later, added, rfl⟩)) notGiven
  · intro since constr s held
    obtain ⟨s₀, later, added, rfl⟩ := holds_ofSteps_iff.mp held
    exact Selector.finalized_settled_iff.mpr (since constr s₀ later added)

theorem Reached.after (reached : d.Reached) (steps : List Step) : (d.after steps).Reached := by
  induction steps generalizing d with
  | nil => exact reached
  | cons step rest ih =>
    refine ih ?_
    cases step with
    | constructor name edits =>
      exact .constructor (ConstructorDecl.reached_iff.mpr ⟨name, edits, rfl⟩) reached
    | selector constr s => exact .selector constr s reached
    | finalize sort => exact .finalized sort reached

/-- The declarations that can be reached are those that steps lead to. -/
theorem reached_iff : d.Reached ↔ ∃ name steps, d = ofSteps name steps := by
  constructor
  · intro reached
    induction reached with
    | new name => exact ⟨name, [], rfl⟩
    | constructor made _ ih =>
      obtain ⟨name, steps, rfl⟩ := ih
      obtain ⟨constr, edits, rfl⟩ := ConstructorDecl.reached_iff.mp made
      refine ⟨name, steps ++ [.constructor constr edits], ?_⟩
      rw [ofSteps_concat]
      rfl
    | selector constr s _ ih =>
      obtain ⟨name, steps, rfl⟩ := ih
      refine ⟨name, steps ++ [.selector constr s], ?_⟩
      rw [ofSteps_concat]
      rfl
    | finalized sort _ ih =>
      obtain ⟨name, steps, rfl⟩ := ih
      refine ⟨name, steps ++ [.finalize sort], ?_⟩
      rw [ofSteps_concat]
      rfl
  · rintro ⟨name, steps, rfl⟩
    exact Reached.after (.new name) steps

/-- The books of a declaration, after some steps and while more follow. Constructors, their
selectors and parameters are told apart, and stay where they are. A constructor is accepted just if
its name is new, and a selector just if its constructor is there and its name is new to it; what is
accepted comes last, and what is rejected adds nothing. Members are constructors like those that are
added, so they may be added to other declarations. The selectors are those that were added, each
with the sort that it came with, or that was given first after it came without. All is settled just
if what came since the last finalization was. -/
structure Kept (name : String) (steps more : List Step) : Prop where
  distinct : (ofSteps name steps).Distinct
  grows : Grows (firstGiven more) (ofSteps name steps) (ofSteps name (steps ++ more))
  constructorLast : ∀ c d', addConstructor c (ofSteps name steps) = .ok () d' →
    d'.constructors = (ofSteps name steps).constructors ++ [c]
  constructorAccepted_iff : ∀ c, (∃ d', addConstructor c (ofSteps name steps) = .ok () d') ↔
    ¬ (ofSteps name steps).Has c.name
  selectorLast : ∀ constr s d', addSelector constr s (ofSteps name steps) = .ok () d' →
    (ofSteps name steps).Has constr ∧
      d'.constructors = extended (ofSteps name steps).constructors constr s
  selectorAccepted_iff : ∀ constr s, (∃ d', addSelector constr s (ofSteps name steps) = .ok () d') ↔
    (ofSteps name steps).Has constr ∧
      ∀ c ∈ (ofSteps name steps).constructors, c.name = constr → ¬ c.Has s.name
  rejected : ∀ (edit : Edit) (e : Error) (d' : DatatypeDecl),
    edit.perform (ofSteps name steps) = .error e d' →
      d'.constructors = (ofSteps name steps).constructors
  members : (ofSteps name steps).FromEdits
  holds_iff : ∀ constr s, (ofSteps name steps).Holds constr s ↔
    ∃ s₀ later, Added { name } steps constr s₀ later ∧ s = s₀.settled (firstGiven later)
  isFinalized_iff : (ofSteps name steps).isFinalized = true ↔
    ∀ constr s later, Added { name } steps constr s later →
      firstGiven later = none → s.finalized = true

/-- The books are kept over every course of edits of a constructor and of steps of a declaration. -/
theorem books_kept (name : String) :
    (∀ edits more, ConstructorDecl.Kept name edits more) ∧ ∀ steps more, Kept name steps more := by
  refine ⟨ConstructorDecl.kept name, fun steps more => ?_⟩
  have distinct := distinct_ofSteps name steps
  have made : FromEdits { name } := fun _ mem => absurd mem List.not_mem_nil
  exact {
    distinct
    grows := by
      rw [ofSteps_append]
      exact distinct.grows_after more
    constructorLast := fun c d' accepted => by rw [(addConstructor_ok accepted).2]
    constructorAccepted_iff := fun _ => addConstructor_accepted_iff
    selectorLast := fun constr s d' accepted => by
      obtain ⟨member, -, rfl⟩ := addSelector_ok distinct accepted
      exact ⟨member, rfl⟩
    selectorAccepted_iff := fun _ _ => addSelector_accepted_iff distinct
    rejected := fun edit e d' rejected => rejected_constructors rejected
    members := (distinct_new name).fromEdits_after made steps
    holds_iff := fun _ _ => holds_ofSteps_iff
    isFinalized_iff := isFinalized_ofSteps_iff }

/-- Of a list, all kinds of edits are rejected once; the parameter of a rejected selector stays. -/
example : ofSteps "list" [.constructor "nil" [], .constructor "nil" [.selector "x" .int],
      .constructor "cons"
        [.selector "head" (.param "T"), .selector "head" .bool, .selectorSelf "tail" "list"],
      .selector "nil" ⟨"mark", .int, true⟩, .selector "nil" ⟨"mark", .param "U", true⟩,
      .selector "pair" ⟨"left", .int, true⟩, .finalize (.datatype "list"), .finalize .int] =
    { name := "list"
      params := [.param "T", .param "U"]
      constructors := [⟨"nil", [⟨"mark", .int, true⟩]⟩,
        ⟨"cons", [⟨"head", .param "T", true⟩, ⟨"tail", .datatype "list", true⟩]⟩] } := by
  decide

end DatatypeDecl

end FormulaGraph
