import FormulaGraph.Proofs.Datatype.History
import FormulaGraph.Proofs.Solver.Changes

/-!
The parameters of a declaration are those that stand alone as the sort with which a selector was
added. A parameter inside another sort is not listed, and finalization lists and removes none.
-/

namespace FormulaGraph

namespace LogicSort

/-- The first sort is the second or a part of it, at any depth. -/
inductive OccursIn (a : LogicSort) : LogicSort → Prop
  | here : OccursIn a a
  | inPart {sort part : LogicSort} (ofSort : part ∈ sort.parts) (occurs : OccursIn a part) :
      OccursIn a sort

theorem occursIn_iff_eq {a sort : LogicSort} (whole : sort.parts = []) :
    a.OccursIn sort ↔ a = sort := by
  constructor
  · intro occurs
    cases occurs with
    | here => rfl
    | inPart ofSort => exact absurd (whole ▸ ofSort) List.not_mem_nil
  · rintro rfl
    exact .here

def IsParam (sort : LogicSort) : Prop := ∃ name, sort = .param name

end LogicSort

namespace DatatypeDecl

variable {d d' : DatatypeDecl} {step : Step} {added : List (String × Selector)}
    {name constr : String} {s : Selector}
  {sort other : LogicSort} {params : List LogicSort}

/-- The step is a selector that is rejected for its name, after its parameter was noted for the
first time. -/
def Step.Leaks (d : DatatypeDecl) (sort : LogicSort) : Step → Prop
  | .selector constr s => ∃ p, sort = .param p ∧ (Edit.selector constr s).Leaks d p
  | .constructor _ _ | .finalize _ => False

/-- One of the steps leaves the parameter of a rejected selector behind. -/
def Leaked (d : DatatypeDecl) (steps : List Step) (sort : LogicSort) : Prop :=
  Sometime (fun d step _ => step.Leaks d sort) d steps

/-- A selector of exactly this sort was added. -/
def AddedOf (d : DatatypeDecl) (steps : List Step) (sort : LogicSort) : Prop :=
  ∃ constr s later, Added d steps constr s later ∧ s.sort = sort

theorem mem_withParam_iff :
    sort ∈ withParam params other ↔ sort ∈ params ∨ sort.IsParam ∧ other = sort := by
  obtain ⟨p, rfl, -, noted⟩ | ⟨old, same⟩ := withParam_cases params other
  · rw [noted, List.mem_append, List.mem_singleton]
    refine or_congr_right ⟨?_, fun param => param.2.symm⟩
    rintro rfl
    exact ⟨⟨p, rfl⟩, rfl⟩
  · rw [same]
    refine ⟨.inl, ?_⟩
    rintro (mem | ⟨⟨p, rfl⟩, rfl⟩)
    · exact mem
    · exact old p rfl

theorem mem_foldl_withParam_iff {sorts : List LogicSort} :
    sort ∈ sorts.foldl withParam params ↔ sort ∈ params ∨ sort.IsParam ∧ sort ∈ sorts := by
  induction sorts generalizing params with
  | nil => simp
  | cons other rest ih =>
    rw [List.foldl_cons, ih, mem_withParam_iff, List.mem_cons, or_assoc, ← and_or_left, eq_comm]

theorem not_leaks_selector (clean : ∀ c, d.find? constr = some c → ¬ c.Has s.name) :
    ¬ (Step.selector constr s).Leaks d sort := by
  rintro ⟨p, -, -, -, c, found, has⟩
  exact clean c found has

theorem Change.mem_params_iff (change : Change d step added d') (distinct : d.Distinct) :
    sort ∈ d'.params ↔ sort ∈ d.params ∨
      (sort.IsParam ∧ ∃ constr s, (constr, s) ∈ added ∧ s.sort = sort) ∨ step.Leaks d sort := by
  cases change with
  | constructor edits new => simp [mem_foldl_withParam_iff, Step.offers, Step.Leaks]
  | @selector constr s member new =>
    have clean : ¬ (Step.selector constr s).Leaks d sort := not_leaks_selector fun c found =>
      new c (find?_eq_some distinct found).1 (find?_eq_some distinct found).2.1
    simp [mem_withParam_iff, clean]
  | finalize given => simp [Step.Leaks, DatatypeDecl.finalize]
  | again edits old => simp [Step.Leaks]
  | @astray constr s absent =>
    have clean : ¬ (Step.selector constr s).Leaks d sort := not_leaks_selector fun c found => by
      cases absent.symm.trans found
    simp [clean]
  | @noted constr s c found has =>
    -- The parameter of a rejected selector is noted, which is a leak only if it was not known.
    rw [mem_withParam_iff]
    constructor
    · rintro (old | ⟨⟨p, rfl⟩, same⟩)
      · exact .inl old
      · by_cases known : .param p ∈ d.params
        · exact .inl known
        · exact .inr (.inr ⟨p, rfl, same, known, c, found, has⟩)
    · rintro (old | ⟨-, _, _, none, -⟩ | ⟨p, rfl, same, -⟩)
      · exact .inl old
      · exact absurd none List.not_mem_nil
      · exact .inr ⟨⟨p, rfl⟩, same⟩

theorem addedOf_cons_iff {rest : List Step} : AddedOf d (step :: rest) sort ↔
    (∃ constr s, (constr, s) ∈ step.additions d ∧ s.sort = sort) ∨
    AddedOf (step.perform.finalState d) rest sort := by
  simp only [AddedOf, added_cons_iff]
  constructor
  · rintro ⟨constr, s, later, ⟨-, mem⟩ | added, same⟩
    · exact .inl ⟨constr, s, mem, same⟩
    · exact .inr ⟨constr, s, later, added, same⟩
  · rintro (⟨constr, s, mem, same⟩ | ⟨constr, s, later, added, same⟩)
    · exact ⟨constr, s, rest, .inl ⟨rfl, mem⟩, same⟩
    · exact ⟨constr, s, later, .inr added, same⟩

theorem leaked_cons_iff {rest : List Step} :
    Leaked d (step :: rest) sort ↔ step.Leaks d sort ∨
      Leaked (step.perform.finalState d) rest sort :=
  sometime_cons_iff

/-- What is listed after some steps: what was before, the parameters of which selectors were added,
and those that rejected ones have left behind. -/
theorem Distinct.mem_params_after_iff {steps : List Step} (distinct : d.Distinct) :
    sort ∈ (d.after steps).params ↔
      sort ∈ d.params ∨ (sort.IsParam ∧ AddedOf d steps sort) ∨ Leaked d steps sort := by
  induction steps generalizing d with
  | nil => simp [after_nil, AddedOf, Added, Leaked, not_sometime_nil]
  | cons step rest ih =>
    have first := change distinct step
    rw [after_cons, ih (first.distinct distinct), first.mem_params_iff distinct,
      addedOf_cons_iff, leaked_cons_iff, and_or_left]
    simp only [or_assoc, or_left_comm]

theorem mem_params_ofSteps_iff {steps : List Step} :
    sort ∈ (ofSteps name steps).params ↔ (sort.IsParam ∧ AddedOf { name } steps sort) ∨
      Leaked { name } steps sort := by
  rw [ofSteps, (distinct_new name).mem_params_after_iff]
  simp

theorem mem_of_firstGiven {steps : List Step} (given : firstGiven steps = some sort) :
    .finalize sort ∈ steps := by
  obtain ⟨step, mem, gives⟩ := List.exists_of_findSome?_eq_some given
  cases step with
  | finalize other =>
    cases gives
    exact mem
  | constructor | selector => cases gives

/-- The parameters are those that occur in the selectors, at any depth. -/
def ListsAll (d : DatatypeDecl) : Prop :=
  ∀ sort, sort ∈ d.params ↔ sort.IsParam ∧ ∃ constr s, d.Holds constr s ∧ sort.OccursIn s.sort

/-- Finalization is given no parameter, and no selector comes with one for its placeholder. -/
structure Plain (name : String) (steps : List Step) : Prop where
  given : ∀ sort, .finalize sort ∈ steps → ¬ sort.IsParam
  pending : ∀ constr s later, Added { name } steps constr s later →
    s.finalized = false → ¬ s.sort.IsParam

theorem Added.subset {steps later : List Step} (added : Added d steps constr s later) :
    later ⊆ steps := by
  obtain ⟨earlier, step, rest, rfl, rfl, -⟩ := added
  exact fun other mem => List.mem_append_right _ (List.mem_cons_of_mem _ mem)

theorem Added.offered {steps later : List Step} (added : Added d steps constr s later) :
    ∃ step ∈ steps, (constr, s) ∈ step.offers := by
  obtain ⟨earlier, step, rest, rfl, rfl, mem⟩ := added
  refine ⟨step, List.mem_append_right _ List.mem_cons_self, ?_⟩
  unfold Step.additions at mem
  split at mem
  · exact mem
  · cases mem

/-- In a plain course a parameter that stands alone in a selector is the one that the selector came
with. -/
theorem Plain.addedOf_iff {steps : List Step} (plain : Plain name steps) (param : sort.IsParam) :
    AddedOf { name } steps sort ↔ ∃ constr s,
      (ofSteps name steps).Holds constr s ∧ s.sort = sort := by
  constructor
  · rintro ⟨constr, s, later, added, rfl⟩
    have final : s.finalized = true := by
      by_contra pending
      exact plain.pending constr s later added (Bool.not_eq_true _ ▸ pending) param
    refine ⟨constr, s, holds_ofSteps_iff.mpr ⟨s, later, added, ?_⟩, rfl⟩
    rw [Selector.settled_of_finalized final]
  · rintro ⟨constr, s, held, rfl⟩
    obtain ⟨s₀, later, added, rfl⟩ := holds_ofSteps_iff.mp held
    refine ⟨constr, s₀, later, added, ?_⟩
    cases given : firstGiven later with
    | none => rfl
    | some sort =>
      cases final : s₀.finalized with
      | true => rw [Selector.settled_of_finalized final]
      | false =>
        rw [given, Selector.settled_some final] at param
        exact absurd param (plain.given sort (added.subset (mem_of_firstGiven given)))

/-- The parameters are listed once each, and those of all selectors that were added are. If no
rejected selector has left its parameter behind, there are no others; so in a plain course they are
those that now stand alone as the sort of a selector. -/
theorem params_exact (name : String) (steps : List Step) :
    (ofSteps name steps).params.Nodup ∧
      (∀ sort : LogicSort, sort.IsParam → AddedOf { name } steps sort →
        sort ∈ (ofSteps name steps).params) ∧ ((∀ sort, ¬ Leaked { name } steps sort) →
        (∀ sort ∈ (ofSteps name steps).params, sort.IsParam ∧ AddedOf { name } steps sort) ∧
        (Plain name steps → ∀ sort, sort ∈ (ofSteps name steps).params ↔
          sort.IsParam ∧ ∃ constr s, (ofSteps name steps).Holds constr s ∧ s.sort = sort)) := by
  have complete : ∀ sort : LogicSort, sort.IsParam → AddedOf { name } steps sort →
      sort ∈ (ofSteps name steps).params :=
    fun sort param added => mem_params_ofSteps_iff.mpr (.inl ⟨param, added⟩)
  refine ⟨(distinct_ofSteps name steps).params, complete, fun clean => ?_⟩
  have exactly : ∀ sort ∈ (ofSteps name steps).params, sort.IsParam ∧ AddedOf { name } steps sort :=
    fun sort listed => (mem_params_ofSteps_iff.mp listed).resolve_right (clean sort)
  refine ⟨exactly, fun plain sort => ⟨fun listed => ?_, ?_⟩⟩
  · obtain ⟨param, added⟩ := exactly sort listed
    exact ⟨param, (plain.addedOf_iff param).mp added⟩
  · rintro ⟨param, held⟩
    exact complete sort param ((plain.addedOf_iff param).mpr held)

/-- A tree with values at its leaves, to which a mark is added in the end. -/
def tree : List Step :=
  [.constructor "leaf" [.selector "value" (.param "T")],
    .constructor "node" [.selectorSelf "left" "tree", .selector "table" (.array .int (.param "U"))],
    .finalize (.datatype "tree"), .selector "leaf" ⟨"mark", .param "V", true⟩]

theorem not_leaked_tree (sort : LogicSort) : ¬ Leaked { name := "tree" } tree sort := by
  simp only [tree, Leaked, sometime_cons_iff, not_sometime_nil, Step.Leaks, false_or, or_false]
  rintro ⟨p, -, -, -, c, found, s, hs, same⟩
  have leaf : c = ⟨"leaf", [⟨"value", .param "T", true⟩]⟩ := Option.some.inj (found.symm.trans rfl)
  subst leaf
  cases List.mem_singleton.mp hs
  exact absurd same (by decide)

theorem plain_tree : Plain "tree" tree where
  given sort given := by
    have same : sort = .datatype "tree" := by simpa [tree] using given
    rintro ⟨p, param⟩
    cases same.symm.trans param
  pending constr s later added pending := by
    have reference : ∀ step ∈ tree, ∀ offer ∈ step.offers,
        offer.2.finalized = false → offer.2.sort = .unresolved "tree" := by decide
    obtain ⟨step, mem, offered⟩ := added.offered
    rintro ⟨p, param⟩
    cases (reference step mem _ offered pending).symm.trans param

/-- The value and the mark stand alone, the parameter of the table does not. -/
theorem params_exact_tree : (∀ sort, ¬ Leaked { name := "tree" } tree sort) ∧ Plain "tree" tree ∧
    (ofSteps "tree" tree).params = [.param "T", .param "V"] ∧
    ∀ sort, sort ∈ (ofSteps "tree" tree).params ↔
      sort.IsParam ∧ ∃ constr s, (ofSteps "tree" tree).Holds constr s ∧ s.sort = sort :=
  ⟨not_leaked_tree, plain_tree, by
    decide, ((params_exact "tree" tree).2.2 not_leaked_tree).2 plain_tree⟩

/-- A parameter in an array is not listed, nor is one that finalization gives, and one that a
placeholder came with stays. -/
theorem params_apart :
    ¬ ListsAll (ofSteps "d" [.constructor "c" [.selector "x" (.array (.param "T") .int)]]) ∧
      ¬ ListsAll (ofSteps "d" [.constructor "c" [.selectorSelf "x" "d"], .finalize (.param "T")]) ∧
      ¬ ListsAll (ofSteps "d" [.constructor "c" [],
        .selector "c" ⟨"x", .param "T", false⟩, .finalize (.datatype "d")]) := by
  refine ⟨fun all => ?_, fun all => ?_, fun all => ?_⟩
  · have nested : (LogicSort.param "T").OccursIn (.array (.param "T") .int) :=
      .inPart List.mem_cons_self .here
    have listed := (all (.param "T")).mpr ⟨⟨"T", rfl⟩, "c", ⟨"x", _, true⟩,
      ⟨⟨"c", [⟨"x", _, true⟩]⟩, List.mem_singleton_self _, rfl, List.mem_singleton_self _⟩, nested⟩
    cases listed
  · have listed := (all (.param "T")).mpr ⟨⟨"T", rfl⟩, "c", ⟨"x", .param "T", true⟩,
      ⟨⟨"c", [⟨"x", _, true⟩]⟩, List.mem_singleton_self _, rfl, List.mem_singleton_self _⟩, .here⟩
    cases listed
  · obtain ⟨-, constr, s, ⟨c, hc, -, hs⟩, occurs⟩ :=
      (all (.param "T")).mp (List.mem_singleton_self _)
    cases List.mem_singleton.mp hc
    cases List.mem_singleton.mp hs
    cases (LogicSort.occursIn_iff_eq rfl).mp occurs

end DatatypeDecl

end FormulaGraph
