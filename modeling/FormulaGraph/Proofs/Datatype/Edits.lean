import FormulaGraph.Datatype
import FormulaGraph.Proofs.Action

/-!
Edits of a declaration, and what one leaves that is rejected. A constructor is refused before
anything has changed. A selector is refused after its parameter was noted, so that the parameter
stays.
-/

namespace FormulaGraph

/-- The selector after a sort has been given, if one has, to what is not settled yet. -/
def Selector.settled (given : Option LogicSort) (s : Selector) : Selector :=
  match given with
  | none => s
  | some sort => if s.finalized then s else { s with sort := sort, finalized := true }

namespace ConstructorDecl

/-- The constructor with its selectors settled. -/
def settled (given : Option LogicSort) (c : ConstructorDecl) : ConstructorDecl :=
  { c with selectors := c.selectors.map (Selector.settled given) }

/-- What can happen to a constructor: a selector is added to it, by itself or through a declaration
that it is a member of, or that declaration is finalized. A member may be copied out of its
declaration at any time. -/
inductive Edit where
  | selector (name : String) (sort : LogicSort)
  | selectorSelf (name datatype : String)
  | member (s : Selector)
  | finalize (sort : LogicSort)

def Edit.perform : Edit → Action ConstructorDecl Unit
  | .selector name sort => addSelector name sort
  | .selectorSelf name datatype => addSelectorSelf name datatype
  | .member s => push s
  | .finalize sort => modify (settled (some sort))

/-- The constructors that edits lead to, whether these are accepted or rejected. -/
inductive Reached : ConstructorDecl → Prop
  | new (name : String) : Reached { name }
  | edited {c : ConstructorDecl} (edit : Edit) (reached : Reached c) :
      Reached (edit.perform.finalState c)

/-- The constructor has a selector of the name. -/
def Has (c : ConstructorDecl) (name : String) : Prop := ∃ s ∈ c.selectors, s.name = name

variable {c c' : ConstructorDecl} {s : Selector} {e : Error}

theorem any_selector_iff {name : String} : c.selectors.any (·.name = name) = true ↔ c.Has name := by
  simp [Has]

theorem push_of_has (has : c.Has s.name) : push s c = .error (.duplicate .selector s.name) c := by
  rw [push, if_pos (any_selector_iff.mpr has)]

theorem push_of_new (new : ¬ c.Has s.name) :
    push s c = .ok () { c with selectors := c.selectors ++ [s] } := by
  rw [push, if_neg (mt any_selector_iff.mp new)]

theorem push_error (rejected : push s c = .error e c') :
    c.Has s.name ∧ e = .duplicate .selector s.name ∧ c' = c := by
  by_cases has : c.Has s.name
  · cases (push_of_has has).symm.trans rejected
    exact ⟨has, rfl, rfl⟩
  · cases (push_of_new has).symm.trans rejected

end ConstructorDecl

namespace DatatypeDecl

/-- What can be asked of a datatype under declaration and may be refused. -/
inductive Edit where
  | constructor (c : ConstructorDecl)
  | selector (constr : String) (s : Selector)

def Edit.perform : Edit → Action DatatypeDecl Unit
  | .constructor c => addConstructor c
  | .selector constr s => addSelector constr s

/-- The declarations that edits and finalizations lead to, whether the edits are accepted or
rejected. -/
inductive Reached : DatatypeDecl → Prop
  | new (name : String) : Reached { name }
  | constructor {d : DatatypeDecl} {c : ConstructorDecl} (made : c.Reached) (reached : Reached d) :
      Reached ((addConstructor c).finalState d)
  | selector {d : DatatypeDecl} (constr : String) (s : Selector) (reached : Reached d) :
      Reached ((addSelector constr s).finalState d)
  | finalized {d : DatatypeDecl} (sort : LogicSort) (reached : Reached d) :
      Reached (d.finalize sort)

/-- The edit notes a parameter that is new, and then the selector turns out to be there already. -/
def Edit.Leaks (d : DatatypeDecl) (param : String) : Edit → Prop
  | .constructor _ => False
  | .selector constr s => s.sort = .param param ∧ .param param ∉ d.params ∧
      ∃ c, d.find? constr = some c ∧ c.Has s.name

variable {d d' : DatatypeDecl} {edit : Edit} {e : Error}
    {params : List LogicSort} {sort : LogicSort}

theorem withParam_cases (params : List LogicSort) (sort : LogicSort) :
    (∃ p, sort = .param p ∧ .param p ∉ params ∧ withParam params sort = params ++ [.param p]) ∨
      (∀ p, sort = .param p → .param p ∈ params) ∧ withParam params sort = params := by
  cases sort with
  | param p =>
    by_cases known : .param p ∈ params
    · exact .inr ⟨fun q same => same ▸ known, if_pos known⟩
    · exact .inl ⟨p, rfl, known, if_neg known⟩
  | _ => exact .inr ⟨fun p same => (by cases same), rfl⟩

theorem addConstructor_error {c : ConstructorDecl} (rejected : addConstructor c d = .error e d') :
    d' = d := by
  unfold addConstructor at rejected
  split at rejected
  · cases rejected
    rfl
  · cases rejected

theorem addSelector_error {constr : String} {s : Selector}
    (rejected : addSelector constr s d = .error e d') :
    d.find? constr = none ∧ d' = d ∨ (∃ c, d.find? constr = some c ∧ c.Has s.name) ∧
      d' = { d with params := withParam d.params s.sort } := by
  unfold addSelector at rejected
  cases found : d.find? constr with
  | none =>
    rw [found] at rejected
    cases rejected
    exact .inl ⟨rfl, rfl⟩
  | some c =>
    rw [found] at rejected
    dsimp only at rejected
    cases pushed : ConstructorDecl.push s c with
    | ok _ c' =>
      rw [pushed] at rejected
      cases rejected
    | error err c' =>
      rw [pushed] at rejected
      cases rejected
      obtain ⟨has, -, -⟩ := ConstructorDecl.push_error pushed
      exact .inr ⟨⟨c, rfl, has⟩, rfl⟩

theorem rejected_constructors (rejected : edit.perform d = .error e d') :
    d'.constructors = d.constructors := by
  cases edit with
  | constructor c => rw [addConstructor_error rejected]
  | selector constr s =>
    obtain ⟨-, same⟩ | ⟨-, same⟩ := addSelector_error rejected
    · rw [same]
    · rw [same]

/-- A rejected edit leaves the declaration as it was, with its name, its constructors and their
selectors; all but this: a selector that is refused because there is one of its name leaves its
parameter behind, if that is new. -/
theorem rejected_edit (rejected : edit.perform d = .error e d') :
    (∃ p, edit.Leaks d p ∧ d' = { d with params := d.params ++ [.param p] }) ∨
      (∀ p, ¬ edit.Leaks d p) ∧ d' = d := by
  cases edit with
  | constructor c => exact .inr ⟨fun p leaks => leaks, addConstructor_error rejected⟩
  | selector constr s =>
    obtain ⟨absent, same⟩ | ⟨has, same⟩ := addSelector_error rejected
    · refine .inr ⟨?_, same⟩
      rintro p ⟨-, -, c, found, -⟩
      cases absent.symm.trans found
    · obtain ⟨p, param, new, noted⟩ | ⟨old, noted⟩ := withParam_cases d.params s.sort
      · exact .inl ⟨p, ⟨param, new, has⟩, noted ▸ same⟩
      · refine .inr ⟨?_, ?_⟩
        · rintro p ⟨param, new, -⟩
          exact new (old p param)
        · rw [same, noted]

/-- A box that holds an integer. -/
def box : DatatypeDecl :=
    { name := "box", constructors := [{ name := "full", selectors := [⟨"get", .int, true⟩] }] }

theorem box_reached : box.Reached := by
  have full : ConstructorDecl.Reached { name := "full", selectors := [⟨"get", .int, true⟩] } :=
    .edited (.selector "get" .int) (.new "full")
  exact .constructor full (.new "box")

/-- A second selector of the name that uses no parameter is refused, and the box stays as it is. -/
theorem rejected_edit_box : ∃ e d', box.Reached ∧
    (Edit.selector "full" ⟨"get", .bool, true⟩).perform box = .error e d' ∧ d' = box := by
  have rejected : (Edit.selector "full" ⟨"get", .bool, true⟩).perform box =
      .error (.duplicate .selector "get") box := rfl
  refine ⟨_, _, box_reached, rejected, ?_⟩
  obtain ⟨p, ⟨param, -⟩, -⟩ | ⟨-, same⟩ := rejected_edit rejected
  · cases param
  · exact same

/-- A second selector of the name that uses a parameter is refused, and now the box has the
parameter. -/
theorem rejected_edit_changes : ∃ e d', box.Reached ∧
    (Edit.selector "full" ⟨"get", .param "T", true⟩).perform box = .error e d' ∧
    box.params = [] ∧ d'.params = [.param "T"] ∧ d' ≠ box :=
  ⟨_, _, box_reached, rfl, rfl, rfl, by decide⟩

end DatatypeDecl

end FormulaGraph
