import FormulaGraph.Proofs.Datatype.Edits
import Mathlib.Data.List.Nodup

/-!
What a step in the making of a declaration changes. It adds something at an end, or settles what is
there, or is rejected: `Change` says which, with all that is added. So names stay apart, and all
that is there grows in its place.
-/

namespace FormulaGraph

namespace Selector

variable {s : Selector} {given : Option LogicSort}

@[simp] theorem settled_none (s : Selector) : s.settled none = s := rfl

theorem settled_of_finalized (final : s.finalized = true) (given : Option LogicSort) :
    s.settled given = s := by
  cases given with
  | none => rfl
  | some sort => exact if_pos final

theorem settled_some (pending : s.finalized = false) (sort : LogicSort) :
    s.settled (some sort) = { s with sort := sort, finalized := true } := by
  rw [settled, pending]
  rfl

@[simp] theorem name_settled (given : Option LogicSort) (s : Selector) :
    (s.settled given).name = s.name := by
  cases final : s.finalized with
  | true => rw [settled_of_finalized final]
  | false =>
    cases given with
    | none => rfl
    | some sort => rw [settled_some final]

theorem finalized_settled_iff :
    (s.settled given).finalized = true ↔ (given = none → s.finalized = true) := by
  cases final : s.finalized with
  | true => simp [settled_of_finalized final, final]
  | false =>
    cases given with
    | none => simp [final]
    | some sort => simp [settled_some final]

theorem settled_settled (given later : Option LogicSort) (s : Selector) :
    (s.settled given).settled later = s.settled (given.or later) := by
  cases given with
  | none => rw [settled_none, Option.none_or]
  | some sort =>
    rw [Option.some_or]
    exact settled_of_finalized (finalized_settled_iff.mpr fun none => by cases none) later

end Selector

namespace ConstructorDecl

variable {c c' c'' : ConstructorDecl} {given later : Option LogicSort} {s : Selector}

/-- The constructor after some more edits, whether they are accepted or rejected. -/
def after (c : ConstructorDecl) (edits : List Edit) : ConstructorDecl :=
  edits.foldl (fun c edit => edit.perform.finalState c) c

/-- The constructor that edits lead to. -/
def ofEdits (name : String) (edits : List Edit) : ConstructorDecl := after { name } edits

/-- The selector that an edit offers to the constructor. -/
def Edit.offer? : Edit → Option Selector
  | .selector name sort => some ⟨name, sort, true⟩
  | .selectorSelf name datatype => some ⟨name, .unresolved datatype, false⟩
  | .member s => some s
  | .finalize _ => none

/-- The sort that an edit gives to what is not settled yet. -/
def Edit.given? : Edit → Option LogicSort
  | .finalize sort => some sort
  | _ => none

/-- The sort that is given first. -/
def firstGiven (edits : List Edit) : Option LogicSort := edits.findSome? Edit.given?

/-- The constructor with one more selector, which comes last. -/
def append (c : ConstructorDecl) (s : Selector) :
    ConstructorDecl := { c with selectors := c.selectors ++ [s] }

/-- No two selectors have one name. -/
def Distinct (c : ConstructorDecl) : Prop := (c.selectors.map Selector.name).Nodup

/-- What the first constructor may become, when a sort is given or none: its selectors are settled
and stay where they are, and others come after them. -/
structure Grows (given : Option LogicSort) (c c' : ConstructorDecl) : Prop where
  name : c'.name = c.name
  selectors : c.selectors.map (Selector.settled given) <+: c'.selectors

@[simp] theorem map_settled_none (selectors : List Selector) :
    selectors.map (Selector.settled none) = selectors :=
  List.map_id'' Selector.settled_none selectors

theorem Grows.refl (c : ConstructorDecl) : Grows none c c where
  name := rfl
  selectors := by simp

theorem Grows.append (c : ConstructorDecl) (s : Selector) : Grows none c (c.append s) where
  name := rfl
  selectors := by
    rw [map_settled_none]
    exact List.prefix_append _ _

theorem Grows.settled (c : ConstructorDecl) (given : Option LogicSort) :
    Grows given c (c.settled given) where
  name := rfl
  selectors := List.prefix_rfl

theorem Grows.trans (first : Grows given c c') (second : Grows later c' c'') :
    Grows (given.or later) c c'' where
  name := second.name.trans first.name
  selectors := by
    have both : c.selectors.map (Selector.settled (given.or later)) =
        (c.selectors.map (Selector.settled given)).map (Selector.settled later) := by
      simp [Selector.settled_settled]
    rw [both]
    exact (first.selectors.map (Selector.settled later)).trans second.selectors

theorem Distinct.append (distinct : c.Distinct) (new : ¬ c.Has s.name) : (c.append s).Distinct := by
  have absent : s.name ∉ c.selectors.map Selector.name := fun mem => new (List.mem_map.mp mem)
  have names :
      (c.append s).selectors.map Selector.name = c.selectors.map Selector.name ++ [s.name] := by
    simp [ConstructorDecl.append]
  rw [Distinct, names, ← List.concat_eq_append]
  exact List.Nodup.concat absent distinct

theorem Distinct.settled (distinct : c.Distinct) (given : Option LogicSort) :
    (c.settled given).Distinct := by
  have names : (c.settled given).selectors.map Selector.name = c.selectors.map Selector.name := by
    simp [ConstructorDecl.settled, Function.comp_def]
  rw [Distinct, names]
  exact distinct

theorem push_ok (accepted : push s c = .ok () c') : ¬ c.Has s.name ∧ c' = c.append s := by
  by_cases has : c.Has s.name
  · cases (push_of_has has).symm.trans accepted
  · cases (push_of_new has).symm.trans accepted
    exact ⟨has, rfl⟩

theorem perform_of_offer {edit : Edit} (offers : edit.offer? = some s) : edit.perform = push s := by
  cases edit with
  | selector | selectorSelf | member => cases offers; rfl
  | finalize sort => cases offers

/-- What an edit does to a constructor. -/
inductive Change (c : ConstructorDecl) (edit : Edit) : ConstructorDecl → Prop
  | added {s : Selector} (offers : edit.offer? = some s) (new : ¬ c.Has s.name) :
      Change c edit (c.append s)
  | refused {s : Selector} (offers : edit.offer? = some s) (old : c.Has s.name) : Change c edit c
  | given {sort : LogicSort} (gives : edit.given? = some sort) :
      Change c edit (c.settled (some sort))

theorem change (edit : Edit) (c : ConstructorDecl) : Change c edit (edit.perform.finalState c) := by
  cases offers : edit.offer? with
  | none =>
    cases edit with
    | finalize sort => exact .given rfl
    | selector | selectorSelf | member => cases offers
  | some s =>
    rw [perform_of_offer offers]
    by_cases has : c.Has s.name
    · rw [Action.finalState_error (push_of_has has)]
      exact .refused offers has
    · rw [Action.finalState_ok (push_of_new has)]
      exact .added offers has

theorem given_of_offer {edit : Edit} (offers : edit.offer? = some s) : edit.given? = none := by
  cases edit with
  | selector | selectorSelf | member => rfl
  | finalize sort => cases offers

theorem Change.grows {edit : Edit} (change : Change c edit c') : Grows edit.given? c c' := by
  cases change with
  | added offers => exact given_of_offer offers ▸ .append c _
  | refused offers => exact given_of_offer offers ▸ .refl c
  | given gives => exact gives ▸ .settled c _

theorem Change.distinct {edit : Edit} (change : Change c edit c') (distinct : c.Distinct) :
    c'.Distinct := by
  cases change with
  | added offers new => exact distinct.append new
  | refused => exact distinct
  | given => exact distinct.settled _

theorem firstGiven_cons (edit : Edit) (rest : List Edit) :
    firstGiven (edit :: rest) = edit.given?.or (firstGiven rest) := by
  rw [firstGiven, List.findSome?_cons]
  cases edit.given? <;> rfl

theorem grows_after (edits : List Edit) (c : ConstructorDecl) :
    Grows (firstGiven edits) c (c.after edits) := by
  induction edits generalizing c with
  | nil => exact .refl c
  | cons edit rest ih =>
    rw [firstGiven_cons]
    exact (change edit c).grows.trans (ih _)

theorem Distinct.after (distinct : c.Distinct) (edits : List Edit) : (c.after edits).Distinct := by
  induction edits generalizing c with
  | nil => exact distinct
  | cons edit rest ih => exact ih ((change edit c).distinct distinct)

theorem distinct_ofEdits (name : String) (edits : List Edit) : (ofEdits name edits).Distinct :=
  Distinct.after (c := { name }) List.nodup_nil edits

theorem name_ofEdits (name : String) (edits : List Edit) : (ofEdits name edits).name = name :=
  (grows_after edits { name }).name

theorem ofEdits_append (name : String) (edits more : List Edit) :
    ofEdits name (edits ++ more) = (ofEdits name edits).after more :=
  List.foldl_append

end ConstructorDecl

namespace DatatypeDecl

/-- A step in the making of a declaration. A constructor has been made by edits before it is added,
perhaps as a member of another declaration. -/
inductive Step where
  | constructor (name : String) (edits : List ConstructorDecl.Edit)
  | selector (constr : String) (s : Selector)
  | finalize (sort : LogicSort)

namespace Step

def perform : Step → Action DatatypeDecl Unit
  | constructor name edits => addConstructor (.ofEdits name edits)
  | selector constr s => addSelector constr s
  | finalize sort => modify (DatatypeDecl.finalize sort)

/-- The sort that the step gives to what is not settled. -/
def given? : Step → Option LogicSort
  | finalize sort => some sort
  | _ => none

/-- The selectors that the step brings, each for a constructor. -/
def offers : Step → List (String × Selector)
  | constructor name edits => (ConstructorDecl.ofEdits name edits).selectors.map fun s => (name, s)
  | selector constr s => [(constr, s)]
  | finalize _ => []

/-- The selectors that the step adds: what it brings, if it is accepted. -/
def additions (step : Step) (d : DatatypeDecl) : List (String × Selector) :=
  match step.perform d with
  | .ok _ _ => step.offers
  | .error _ _ => []

end Step

/-- The declaration has a constructor of the name. -/
def Has (d : DatatypeDecl) (constr : String) : Prop := ∃ c ∈ d.constructors, c.name = constr

/-- The selector is one of the constructor's. -/
def Holds (d : DatatypeDecl) (constr : String) (s : Selector) : Prop :=
  ∃ c ∈ d.constructors, c.name = constr ∧ s ∈ c.selectors

/-- The constructors once the selector is added to the one of the name. -/
def extended (constructors : List ConstructorDecl) (constr : String) (s : Selector) :
    List ConstructorDecl :=
  constructors.map fun c => if c.name = constr then c.append s else c

/-- No two constructors have one name, no two selectors of a constructor do, and no parameter is
listed twice. -/
structure Distinct (d : DatatypeDecl) : Prop where
  constructors : (d.constructors.map ConstructorDecl.name).Nodup
  selectors : ∀ c ∈ d.constructors, c.Distinct
  params : d.params.Nodup

/-- What the first declaration may become, when a sort is given or none: each constructor and each
parameter stays where it is, and others come after them. -/
structure Grows (given : Option LogicSort) (d d' : DatatypeDecl) : Prop where
  name : d'.name = d.name
  params : d.params <+: d'.params
  constructors : ∀ (i : Nat) (c : ConstructorDecl), d.constructors[i]? = some c →
    ∃ c', d'.constructors[i]? = some c' ∧ c.Grows given c'

theorem Grows.refl (d : DatatypeDecl) : Grows none d d where
  name := rfl
  params := List.prefix_rfl
  constructors _ c place := ⟨c, place, .refl c⟩

/-- What a step does to a declaration, with the selectors that it adds. -/
inductive Change (d : DatatypeDecl) : Step → List (String × Selector) → DatatypeDecl → Prop
  | constructor {name : String} (edits : List ConstructorDecl.Edit) (new : ¬ d.Has name) :
      Change d (.constructor name edits) (Step.constructor name edits).offers { d with
        params := ((ConstructorDecl.ofEdits name edits).selectors.map Selector.sort).foldl
          withParam d.params
        constructors := d.constructors ++ [.ofEdits name edits] }
  | selector {constr : String} {s : Selector} (member : d.Has constr)
      (new : ∀ c ∈ d.constructors, c.name = constr → ¬ c.Has s.name) :
      Change d (.selector constr s) [(constr, s)] { d with
        params := withParam d.params s.sort
        constructors := extended d.constructors constr s }
  | finalize (sort : LogicSort) : Change d (.finalize sort) [] (d.finalize sort)
  | again {name : String} (edits : List ConstructorDecl.Edit) (old : d.Has name) :
      Change d (.constructor name edits) [] d
  | astray {constr : String} (s : Selector) (absent : d.find? constr = none) :
      Change d (.selector constr s) [] d
  /-- The selector is rejected since there is one of its name, after its parameter was noted. -/
  | noted {constr : String} {s : Selector} {c : ConstructorDecl} (found : d.find? constr = some c)
      (has : c.Has s.name) :
        Change d (.selector constr s) [] { d with params := withParam d.params s.sort }

variable {d d' d'' : DatatypeDecl} {given later : Option LogicSort} {step : Step}
    {added : List (String × Selector)}
  {name constr : String} {s : Selector} {params : List LogicSort}

theorem finalize_constructors (d : DatatypeDecl) (sort : LogicSort) :
    (d.finalize sort).constructors = d.constructors.map (ConstructorDecl.settled (some sort)) :=
  rfl

theorem any_constructor_iff : d.constructors.any (·.name = constr) = true ↔ d.Has constr := by
  simp [Has]

theorem find?_eq_some (distinct : d.Distinct) {c : ConstructorDecl}
    (found : d.find? constr = some c) :
    c ∈ d.constructors ∧ c.name = constr ∧ ∀ e ∈ d.constructors, e.name = constr → e = c := by
  have name : c.name = constr := by simpa using List.find?_some found
  have mem : c ∈ d.constructors := List.mem_of_find?_eq_some found
  exact ⟨mem, name, fun e he same =>
    List.inj_on_of_nodup_map distinct.constructors he mem (same.trans name.symm)⟩

theorem addConstructor_ok {c : ConstructorDecl} (accepted : addConstructor c d = .ok () d') :
    ¬ d.Has c.name ∧ d' = { d with
      params := (c.selectors.map Selector.sort).foldl withParam d.params
      constructors := d.constructors ++ [c] } := by
  unfold addConstructor at accepted
  split at accepted
  · cases accepted
  · rename_i new
    cases accepted
    exact ⟨mt any_constructor_iff.mpr new, rfl⟩

theorem of_addConstructor_error {c : ConstructorDecl} {e : Error}
    (rejected : addConstructor c d = .error e d') :
    d.Has c.name ∧ d' = d := by
  refine ⟨?_, addConstructor_error rejected⟩
  unfold addConstructor at rejected
  split at rejected
  · rename_i old
    exact any_constructor_iff.mp old
  · cases rejected

theorem addSelector_ok (distinct : d.Distinct) (accepted : addSelector constr s d = .ok () d') :
    d.Has constr ∧ (∀ c ∈ d.constructors, c.name = constr → ¬ c.Has s.name) ∧ d' = { d with
      params := withParam d.params s.sort
      constructors := extended d.constructors constr s } := by
  unfold addSelector at accepted
  cases found : d.find? constr with
  | none =>
    rw [found] at accepted
    cases accepted
  | some c =>
    rw [found] at accepted
    dsimp only at accepted
    obtain ⟨mem, name, sole⟩ := find?_eq_some distinct found
    cases pushed : ConstructorDecl.push s c with
    | error e c' =>
      rw [pushed] at accepted
      cases accepted
    | ok _ c' =>
      rw [pushed] at accepted
      cases accepted
      obtain ⟨new, rfl⟩ := ConstructorDecl.push_ok pushed
      refine ⟨⟨c, mem, name⟩, fun e he same => sole e he same ▸ new, ?_⟩
      -- Every constructor of the name is replaced, but there is no other of that name than the one
      -- that was found.
      congr 1
      refine List.map_congr_left fun e he => ?_
      by_cases same : e.name = constr
      · rw [if_pos same, if_pos same, sole e he same]
      · rw [if_neg same, if_neg same]

theorem addConstructor_accepted_iff {c : ConstructorDecl} :
    (∃ d', addConstructor c d = .ok () d') ↔ ¬ d.Has c.name := by
  constructor
  · rintro ⟨d', accepted⟩
    exact (addConstructor_ok accepted).1
  · intro new
    cases done : addConstructor c d with
    | ok _ d' => exact ⟨d', rfl⟩
    | error e d' => exact absurd (of_addConstructor_error done).1 new

theorem addSelector_accepted_iff (distinct : d.Distinct) :
    (∃ d', addSelector constr s d = .ok () d') ↔
    d.Has constr ∧ ∀ c ∈ d.constructors, c.name = constr → ¬ c.Has s.name := by
  constructor
  · rintro ⟨d', accepted⟩
    obtain ⟨member, new, -⟩ := addSelector_ok distinct accepted
    exact ⟨member, new⟩
  · rintro ⟨⟨c, hc, name⟩, new⟩
    cases done : addSelector constr s d with
    | ok _ d' => exact ⟨d', rfl⟩
    | error e d' =>
      obtain ⟨absent, -⟩ | ⟨⟨c', found, has⟩, -⟩ := addSelector_error done
      · exact absurd name (by simpa using List.find?_eq_none.mp absent c hc)
      · obtain ⟨hc', name', -⟩ := find?_eq_some distinct found
        exact absurd has (new c' hc' name')

theorem change (distinct : d.Distinct) (step : Step) :
    Change d step (step.additions d) (step.perform.finalState d) := by
  unfold Step.additions
  cases done : step.perform d with
  | ok _ d' =>
    rw [Action.finalState_ok done]
    cases step with
    | constructor name edits =>
      obtain ⟨new, rfl⟩ := addConstructor_ok done
      rw [ConstructorDecl.name_ofEdits] at new
      exact .constructor edits new
    | selector constr s =>
      obtain ⟨member, new, rfl⟩ := addSelector_ok distinct done
      exact .selector member new
    | finalize sort =>
      cases done
      exact .finalize sort
  | error e d' =>
    rw [Action.finalState_error done]
    cases step with
    | constructor name edits =>
      obtain ⟨old, rfl⟩ := of_addConstructor_error done
      rw [ConstructorDecl.name_ofEdits] at old
      exact .again edits old
    | selector constr s =>
      obtain ⟨absent, rfl⟩ | ⟨⟨c, found, has⟩, rfl⟩ := addSelector_error done
      · exact .astray s absent
      · exact .noted found has
    | finalize sort => cases done

theorem mem_extended_iff {constructors : List ConstructorDecl} {c : ConstructorDecl} :
    c ∈ extended constructors constr s ↔
      ∃ e ∈ constructors, e.name = constr ∧ c = e.append s ∨ e.name ≠ constr ∧ c = e := by
  rw [extended, List.mem_map]
  constructor
  · rintro ⟨e, he, rfl⟩
    by_cases same : e.name = constr
    · exact ⟨e, he, .inl ⟨same, if_pos same⟩⟩
    · exact ⟨e, he, .inr ⟨same, if_neg same⟩⟩
  · rintro ⟨e, he, ⟨same, rfl⟩ | ⟨other, rfl⟩⟩
    · exact ⟨e, he, if_pos same⟩
    · exact ⟨c, he, if_neg other⟩

theorem nodup_withParam (nodup : params.Nodup) (sort : LogicSort) :
    (withParam params sort).Nodup := by
  obtain ⟨p, -, new, noted⟩ | ⟨-, same⟩ := withParam_cases params sort
  · rw [noted, ← List.concat_eq_append]
    exact List.Nodup.concat new nodup
  · rw [same]
    exact nodup

theorem prefix_withParam (params : List LogicSort) (sort : LogicSort) :
    params <+: withParam params sort := by
  obtain ⟨p, -, -, noted⟩ | ⟨-, same⟩ := withParam_cases params sort
  · rw [noted]
    exact List.prefix_append _ _
  · simp [same]

theorem nodup_foldl_withParam (nodup : params.Nodup) (sorts : List LogicSort) :
    (sorts.foldl withParam params).Nodup := by
  induction sorts generalizing params with
  | nil => exact nodup
  | cons sort rest ih => exact ih (nodup_withParam nodup sort)

theorem prefix_foldl_withParam (params sorts : List LogicSort) :
    params <+: sorts.foldl withParam params := by
  induction sorts generalizing params with
  | nil => exact List.prefix_rfl
  | cons sort rest ih => exact (prefix_withParam params sort).trans (ih _)

theorem Change.distinct (change : Change d step added d') (distinct : d.Distinct) :
    d'.Distinct := by
  cases change with
  | @constructor name edits new =>
    refine ⟨?_, ?_, nodup_foldl_withParam distinct.params _⟩
    · have absent : name ∉ d.constructors.map ConstructorDecl.name := fun mem =>
        new (List.mem_map.mp mem)
      have names :
        (d.constructors ++ [ConstructorDecl.ofEdits name edits]).map ConstructorDecl.name =
          d.constructors.map ConstructorDecl.name ++ [name] := by
        simp [ConstructorDecl.name_ofEdits]
      rw [names, ← List.concat_eq_append]
      exact List.Nodup.concat absent distinct.constructors
    · intro c hc
      cases List.mem_append.mp hc with
      | inl old => exact distinct.selectors c old
      | inr last =>
        rw [List.mem_singleton.mp last]
        exact ConstructorDecl.distinct_ofEdits name edits
  | @selector constr s member new =>
    refine ⟨?_, ?_, nodup_withParam distinct.params s.sort⟩
    · have names : (extended d.constructors constr s).map ConstructorDecl.name =
          d.constructors.map ConstructorDecl.name := by
        rw [extended, List.map_map]
        refine List.map_congr_left fun c _ => ?_
        simp only [Function.comp_apply]
        split <;> rfl
      rw [names]
      exact distinct.constructors
    · intro c hc
      obtain ⟨e, he, ⟨same, rfl⟩ | ⟨-, rfl⟩⟩ := mem_extended_iff.mp hc
      · exact (distinct.selectors e he).append (new e he same)
      · exact distinct.selectors c he
  | finalize sort =>
    refine ⟨?_, ?_, distinct.params⟩
    · rw [finalize_constructors, List.map_map]
      exact distinct.constructors
    · rw [finalize_constructors]
      intro c hc
      obtain ⟨e, he, rfl⟩ := List.mem_map.mp hc
      exact (distinct.selectors e he).settled (some sort)
  | again | astray => exact distinct
  | @noted _ s =>
    exact ⟨distinct.constructors, distinct.selectors, nodup_withParam distinct.params s.sort⟩

theorem Change.grows (change : Change d step added d') : Grows step.given? d d' := by
  cases change with
  | constructor edits new =>
    refine ⟨rfl, prefix_foldl_withParam _ _, fun i c place => ⟨c, ?_, .refl c⟩⟩
    have bound : i < d.constructors.length := (List.getElem?_eq_some_iff.mp place).1
    rw [List.getElem?_append_left bound]
    exact place
  | @selector constr s member new =>
    refine ⟨rfl, prefix_withParam _ _, fun i c place =>
      ⟨if c.name = constr then c.append s else c, ?_, ?_⟩⟩
    · simp only [extended, List.getElem?_map, place, Option.map_some]
    · split
      · exact .append c s
      · exact .refl c
  | finalize sort =>
    refine ⟨rfl, List.prefix_rfl, fun i c place =>
      ⟨c.settled (some sort), ?_, .settled c (some sort)⟩⟩
    simp only [finalize_constructors, List.getElem?_map, place, Option.map_some]
  | again | astray => exact .refl d
  | @noted _ s => exact ⟨rfl, prefix_withParam _ _, (Grows.refl d).constructors⟩

theorem holds_append_iff {c : ConstructorDecl} :
    Holds { d with params := params, constructors := d.constructors ++ [c] } constr s ↔
      d.Holds constr s ∨ c.name = constr ∧ s ∈ c.selectors := by
  constructor
  · rintro ⟨e, he, name, hs⟩
    cases List.mem_append.mp he with
    | inl old => exact .inl ⟨e, old, name, hs⟩
    | inr last =>
      cases List.mem_singleton.mp last
      exact .inr ⟨name, hs⟩
  · rintro (⟨e, he, name, hs⟩ | ⟨name, hs⟩)
    · exact ⟨e, List.mem_append_left _ he, name, hs⟩
    · exact ⟨c, List.mem_append_right _ (List.mem_singleton_self c), name, hs⟩

theorem holds_extended_iff {t : Selector} {other : String} (member : d.Has constr) :
    Holds { d with params := params, constructors := extended d.constructors constr s } other t ↔
      d.Holds other t ∨ other = constr ∧ t = s := by
  constructor
  · rintro ⟨c, hc, name, ht⟩
    obtain ⟨e, he, ⟨same, rfl⟩ | ⟨-, rfl⟩⟩ := mem_extended_iff.mp hc
    · cases List.mem_append.mp ht with
      | inl old => exact .inl ⟨e, he, name, old⟩
      | inr last => exact .inr ⟨name.symm.trans same, List.mem_singleton.mp last⟩
    · exact .inl ⟨c, he, name, ht⟩
  · rintro (⟨e, he, name, ht⟩ | ⟨rfl, rfl⟩)
    · by_cases same : e.name = constr
      · exact ⟨e.append s, mem_extended_iff.mpr ⟨e, he, .inl ⟨same, rfl⟩⟩, name,
          List.mem_append_left _ ht⟩
      · exact ⟨e, mem_extended_iff.mpr ⟨e, he, .inr ⟨same, rfl⟩⟩, name, ht⟩
    · obtain ⟨e, he, name⟩ := member
      exact ⟨e.append t, mem_extended_iff.mpr ⟨e, he, .inl ⟨name, rfl⟩⟩, name,
        List.mem_append_right _ (List.mem_singleton_self t)⟩

theorem holds_finalize_iff {sort : LogicSort} :
    (d.finalize sort).Holds constr s ↔ ∃ s₀, d.Holds constr s₀ ∧ s = s₀.settled (some sort) := by
  constructor
  · rintro ⟨c, hc, name, hs⟩
    obtain ⟨e, he, rfl⟩ := List.mem_map.mp hc
    obtain ⟨s₀, hs₀, rfl⟩ := List.mem_map.mp hs
    exact ⟨s₀, ⟨e, he, name, hs₀⟩, rfl⟩
  · rintro ⟨s₀, ⟨e, he, name, hs₀⟩, rfl⟩
    exact ⟨e.settled (some sort), List.mem_map_of_mem he, name, List.mem_map_of_mem hs₀⟩

theorem Change.holds_iff (change : Change d step added d') :
    d'.Holds constr s ↔ (∃ s₀, d.Holds constr s₀ ∧ s = s₀.settled step.given?) ∨
      (constr, s) ∈ added := by
  cases change with
  | @constructor name edits new =>
    rw [holds_append_iff, ConstructorDecl.name_ofEdits]
    simp [Step.given?, Step.offers, and_comm]
  | selector member new =>
    rw [holds_extended_iff member]
    simp [Step.given?]
  | finalize sort =>
    rw [holds_finalize_iff]
    simp [Step.given?]
  | again | astray => simp [Step.given?]
  | noted => simp [Step.given?, Holds]

/-- The constructors are such as edits lead to. -/
def FromEdits (d : DatatypeDecl) : Prop := ∀ c ∈ d.constructors, ∃ edits, c = .ofEdits c.name edits

/-- What becomes of a member in a change is what an edit makes of it. -/
theorem Change.fromEdits (change : Change d step added d') (made : d.FromEdits) : d'.FromEdits := by
  have edited : ∀ e ∈ d.constructors, ∀ edit : ConstructorDecl.Edit,
      ∃ edits, edit.perform.finalState e = .ofEdits e.name edits := fun e he edit => by
    obtain ⟨edits, same⟩ := made e he
    refine ⟨edits ++ [edit], ?_⟩
    rw [ConstructorDecl.ofEdits_append, ← same]
    rfl
  cases change with
  | @constructor name edits new =>
    intro c hc
    cases List.mem_append.mp hc with
    | inl old => exact made c old
    | inr last =>
      cases List.mem_singleton.mp last
      exact ⟨edits, by rw [ConstructorDecl.name_ofEdits]⟩
  | @selector constr s member new =>
    intro c hc
    obtain ⟨e, he, ⟨same, rfl⟩ | ⟨-, rfl⟩⟩ := mem_extended_iff.mp hc
    · have added := edited e he (.member s)
      rwa [show (ConstructorDecl.Edit.member s).perform.finalState e = e.append s from
        Action.finalState_ok (ConstructorDecl.push_of_new (new e he same))] at added
    · exact made c he
  | finalize sort =>
    intro c hc
    obtain ⟨e, he, rfl⟩ := List.mem_map.mp hc
    exact edited e he (.finalize sort)
  | again | astray | noted => exact made

theorem Grows.trans (first : Grows given d d') (second : Grows later d' d'') :
    Grows (given.or later) d d'' where
  name := second.name.trans first.name
  params := first.params.trans second.params
  constructors i c place := by
    obtain ⟨c', place', grown⟩ := first.constructors i c place
    obtain ⟨c'', place'', grown'⟩ := second.constructors i c' place'
    exact ⟨c'', place'', grown.trans grown'⟩

end DatatypeDecl

end FormulaGraph
