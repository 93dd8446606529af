import FormulaGraph.Proofs.Concur
import FormulaGraph.Proofs.Engine.Transcript
import FormulaGraph.Proofs.Solver.Calls

/-!
How a solver comes by the engine's sort for a sort. It is looked up, or made after the sorts that it
is made of; so what goes along with every first use of a sort goes along with every use.
-/

namespace FormulaGraph

namespace LogicSort

/-- The sort is made of others or by itself: it is neither declared nor abstract. -/
def Constructed : LogicSort → Prop
  | .uninterpreted _ _ | .datatype _ | .param _ | .unresolved _ => False
  | _ => True

def Declared : LogicSort → Prop
  | .uninterpreted _ _ | .datatype _ => True
  | _ => False

/-- The sorts that a sort is made of. -/
def parts : LogicSort → List LogicSort
  | .array index element => [index, element]
  | .function domain range => range :: domain
  | _ => []

end LogicSort

theorem Command.parts_eq_of_makes {S T : Type}
    {command : Command (LogicSort × S) T} {sort : LogicSort}
    (makes : (command.mapSorts Prod.fst).makes? = some sort) :
    sort.parts = command.handed.map Prod.fst := by
  cases command with
  | makeSort kind =>
    cases kind with
    | bool | int | real =>
      cases makes
      rfl
    | _ => cases makes
  | makeBitVecSort | makeArraySort | makeFunctionSort | makeUninterpretedSort | makeDatatypeSort =>
    cases makes
    rfl
  | _ => cases makes

namespace Solver

open FormulaGraph.Action

variable {σ S T : Type} [BEq T] [Hashable T] {s s' s'' : Solver σ S T} {sort : LogicSort}
    {made : S} {size size' : Nat}

theorem mem_of_recorded (known : s.session.sorts[sort]? = some made) : sort ∈ s.session.sorts := by
  rw [← Std.HashMap.isSome_getElem?_iff_mem, known]
  rfl

/-- Sorts on record stay there with their handles, and none that is larger than this has come to be
recorded. -/
structure Widens (size : Nat) (s s' : Solver σ S T) : Prop where
  kept : ∀ (sort : LogicSort) (made : S), s.session.sorts[sort]? = some made →
    s'.session.sorts[sort]? = some made
  only : ∀ sort ∈ s'.session.sorts, sort ∈ s.session.sorts ∨ sizeOf sort ≤ size

namespace Widens

theorem refl (size : Nat) (s : Solver σ S T) : Widens size s s := ⟨fun _ _ => id, fun _ => .inl⟩

theorem mono (widens : Widens size s s') (le : size ≤ size') : Widens size' s s' :=
  ⟨widens.kept, fun sort used => (widens.only sort used).imp_right (Nat.le_trans · le)⟩

theorem trans (first : Widens size s s') (second : Widens size s' s'') : Widens size s s'' :=
  ⟨fun sort made known => second.kept sort made (first.kept sort made known),
    fun sort used => (second.only sort used).elim (first.only sort) .inr⟩

/-- A sort that is larger than all that has come to be recorded is still absent. -/
theorem absent (widens : Widens size s s') (absent : sort ∉ s.session.sorts)
    (larger : size < sizeOf sort) :
    sort ∉ s'.session.sorts :=
  fun used => (widens.only sort used).elim absent (Nat.not_le_of_lt larger)

theorem insert (absent : sort ∉ s.session.sorts)
    (inserted : s'.session.sorts = s.session.sorts.insert sort made) :
    Widens (sizeOf sort) s s' where
  kept other made' known := by
    rw [inserted, Std.HashMap.getElem?_insert, if_neg, known]
    rintro same
    exact absent (eq_of_beq same ▸ mem_of_recorded known)
  only other used := by
    rw [inserted] at used
    cases Std.HashMap.mem_insert.mp used with
    | inl same => exact .inr (Nat.le_of_eq (congrArg _ (eq_of_beq same).symm))
    | inr used => exact .inl used

end Widens

/-- The handle is on record for the sort, after which no larger sort has come to be recorded. -/
structure Provided (s : Solver σ S T) (sort : LogicSort) (made : S) (s' : Solver σ S T) : Prop where
  recorded : s'.session.sorts[sort]? = some made
  widens : Widens (sizeOf sort) s s'

variable [Engine σ S T] {R : Solver σ S T → Solver σ S T → Prop} {F : Error → Prop}

/-- The sort is not on record, and by this command the engine makes it from what is on record for
its parts. -/
structure FirstUse (s : Solver σ S T) (sort : LogicSort) (command : Command (LogicSort × S) T)
    (make : Action σ S) : Prop where
  constructed : sort.Constructed
  absent : sort ∉ s.session.sorts
  makes : (command.mapSorts Prod.fst).makes? = some sort
  handed : ∀ p ∈ command.handed, s.session.sorts[p.1]? = some p.2
  performs : Engine.perform (command.mapSorts Prod.snd) = .sort <$> make

theorem FirstUse.parts {command : Command (LogicSort × S) T} {make : Action σ S}
    (use : FirstUse s sort command make) :
    ∀ part ∈ sort.parts, part ∈ s.session.sorts := by
  rw [Command.parts_eq_of_makes use.makes]
  exact List.forall_mem_map.mpr fun p hp => mem_of_recorded (use.handed p hp)

/-- The engine makes a sort, which is then put on record. -/
def useFirst (sort : LogicSort) (make : Action σ S) : Action (Solver σ S T) S := do
  let made ← onEngine make
  record fun s => { s with sorts := s.sorts.insert sort made }
  return made

theorem sorts_useFirst {make : Action σ S} (done : useFirst sort make s = .ok made s') :
    s'.session.sorts = s.session.sorts.insert sort made := by
  obtain ⟨a, s₁, called, recorded⟩ := of_bind_ok done
  obtain ⟨e, notices, -, rfl⟩ := of_onEngine_ok called
  cases recorded
  rfl

section Known

variable {index element range : LogicSort} {i x r : S} {domain : List LogicSort} {ds : List S}

theorem nativeSort_known (known : s.session.sorts[sort]? = some made) :
    nativeSort sort s = .ok made s := by
  rw [nativeSort, get_then, known]
  rfl

theorem nativeSorts_known
    (known : List.Forall₂ (fun sort made => s.session.sorts[sort]? = some made) domain ds) :
    nativeSorts domain s = .ok ds s := by
  induction known with
  | nil =>
    rw [nativeSorts]
    rfl
  | cons known _ ih =>
    rw [nativeSorts, bind_ok (nativeSort_known known), bind_ok ih]
    rfl

/-! Only the sort itself has to be made, if its parts are on record. -/

theorem nativeSort_array (unknown : s.session.sorts[LogicSort.array index element]? = none)
    (ofIndex : s.session.sorts[index]? = some i) (ofElement : s.session.sorts[element]? = some x) :
    nativeSort (.array index element) s =
      useFirst (.array index element) (Engine.makeArraySort i x) s := by
  rw [nativeSort, get_then, unknown]
  dsimp only
  rw [bind_ok (nativeSort_known ofIndex), bind_ok (nativeSort_known ofElement), useFirst]

theorem nativeSort_function (unknown : s.session.sorts[LogicSort.function domain range]? = none)
    (ofDomain : List.Forall₂ (fun sort made => s.session.sorts[sort]? = some made) domain ds)
    (ofRange : s.session.sorts[range]? = some r) :
    nativeSort (.function domain range) s =
      useFirst (.function domain range) (Engine.makeFunctionSort ds r) s := by
  rw [nativeSort, get_then, unknown]
  dsimp only
  rw [bind_ok (nativeSorts_known ofDomain), bind_ok (nativeSort_known ofRange), useFirst]

theorem exists_firstUse {command : Command (LogicSort × S) T}
    (makes : (command.mapSorts Prod.fst).makes? = some sort)
    (handed : ∀ p ∈ command.handed, s.session.sorts[p.1]? = some p.2)
    (constructed : sort.Constructed) (absent : sort ∉ s.session.sorts) :
    ∃ make, FirstUse s sort command make ∧ nativeSort sort s = useFirst sort make s := by
  have unknown : s.session.sorts[sort]? = none := Std.HashMap.getElem?_eq_none absent
  cases command with
  | makeSort kind =>
    cases kind with
    | bool | int | real =>
      cases makes
      refine ⟨_, ⟨constructed, absent, rfl, handed, rfl⟩, ?_⟩
      rw [nativeSort, get_then, unknown, useFirst]
    | _ => cases makes
  | makeBitVecSort width =>
    cases makes
    refine ⟨_, ⟨constructed, absent, rfl, handed, rfl⟩, ?_⟩
    rw [nativeSort, get_then, unknown, useFirst]
  | makeArraySort index element =>
    cases makes
    obtain ⟨ofIndex, ofElement⟩ := List.forall_mem_cons.mp handed
    exact ⟨_, ⟨constructed, absent, rfl, handed, rfl⟩,
      nativeSort_array unknown ofIndex (ofElement element (List.mem_singleton_self _))⟩
  | makeFunctionSort domain range =>
    cases makes
    obtain ⟨ofRange, ofDomain⟩ := List.forall_mem_cons.mp handed
    refine ⟨_, ⟨constructed, absent, rfl, handed, rfl⟩, nativeSort_function unknown ?_ ofRange⟩
    rw [List.forall₂_map_left_iff, List.forall₂_map_right_iff, List.forall₂_same]
    exact ofDomain
  | makeUninterpretedSort | makeDatatypeSort =>
    cases makes
    exact constructed.elim
  | _ => cases makes

end Known

/-- The preorder goes along with every first use of a sort, and a sort that is not to be made may be
refused. -/
structure FollowsUses (R : Solver σ S T → Solver σ S T → Prop) (F : Error → Prop) : Prop where
  refl : ∀ s, R s s
  trans : ∀ {a b c}, R a b → R b c → R a c
  undeclared : ∀ sort, F (.usage (.undeclaredSort sort))
  abstract : ∀ sort, F (.usage (.abstractSort sort))
  first : ∀ {s : Solver σ S T} {sort : LogicSort} {command : Command (LogicSort × S) T}
    {make : Action σ S},
    FirstUse s sort command make → Leads R F (useFirst sort make) s fun _ _ => True

/-- The first use comes after those of the parts, which are smaller and so have not brought the sort
on record. -/
theorem leads_firstUse (follows : FollowsUses R F) {make : Action σ S}
    (command : Command (LogicSort × S) T)
    (constructed : sort.Constructed) (makes : (command.mapSorts Prod.fst).makes? = some sort)
    (handed : ∀ p ∈ command.handed, s'.session.sorts[p.1]? = some p.2)
    (performs : Engine.perform (command.mapSorts Prod.snd) = .sort <$> make)
    (absent : sort ∉ s.session.sorts) (widens : Widens size s s') (smaller : size < sizeOf sort) :
    Leads R F (useFirst sort make) s' (Provided s sort) := by
  have absent' := widens.absent absent smaller
  have led := follows.first ⟨constructed, absent', makes, handed, performs⟩
  cases run : useFirst sort make s' with
  | ok made s'' =>
    have inserted := sorts_useFirst run
    refine (leads_ok run).mpr ⟨(led.answer run).1, ?_, ?_⟩
    · rw [inserted, Std.HashMap.getElem?_insert_self]
    · exact (widens.mono (Nat.le_of_lt smaller)).trans (.insert absent' inserted)
  | error e s'' => exact (leads_error run).mpr (led.failure run)

mutual
theorem leads_nativeSort (follows : FollowsUses R F) (sort : LogicSort) (s : Solver σ S T) :
    Leads R F (nativeSort sort) s (Provided s sort) := by
  rw [nativeSort]
  refine leads_get ?_
  split
  · rename_i known
    exact leads_pure (follows.refl s) ⟨known, .refl _ s⟩
  · rename_i unknown
    have absent : sort ∉ s.session.sorts := by
      rw [← Std.HashMap.isSome_getElem?_iff_mem, unknown]
      exact Bool.false_ne_true
    have none_ : ∀ p ∈ ([] : List (LogicSort × S)), s.session.sorts[p.1]? = some p.2 :=
      List.forall_mem_nil _
    have positive : 0 < sizeOf sort := by cases sort <;> simp +arith
    -- Afterwards the parts are on record, and all that has come to be recorded is smaller than the
    -- sort itself.
    cases sort with
    | bool =>
      exact leads_firstUse follows (.makeSort .bool) trivial rfl none_ rfl absent
        (.refl 0 s) positive
    | int =>
      exact leads_firstUse follows (.makeSort .int) trivial rfl none_ rfl absent
        (.refl 0 s) positive
    | real =>
      exact leads_firstUse follows (.makeSort .real) trivial rfl none_ rfl absent
        (.refl 0 s) positive
    | bitVec w =>
      exact leads_firstUse follows (.makeBitVecSort w) trivial rfl none_ rfl absent
        (.refl 0 s) positive
    | array index element =>
      refine (leads_nativeSort follows index s).bind follows.trans ?_
      rintro i s₁ - ⟨knownIndex, widens₁⟩
      refine (leads_nativeSort follows element s₁).bind follows.trans ?_
      rintro x s₂ - ⟨knownElement, widens₂⟩
      have widens : Widens (sizeOf index + sizeOf element) s s₂ :=
        (widens₁.mono (by omega)).trans (widens₂.mono (by omega))
      have handed : ∀ p ∈ [(index, i), (element, x)], s₂.session.sorts[p.1]? = some p.2 :=
        List.forall_mem_cons.mpr
          ⟨widens₂.kept _ _ knownIndex, List.forall_mem_singleton.mpr knownElement⟩
      refine leads_firstUse follows (.makeArraySort (index, i) (element, x)) trivial rfl handed
        rfl absent widens ?_
      rw [LogicSort.array.sizeOf_spec]
      omega
    | function domain range =>
      refine (leads_nativeSorts follows domain s).bind follows.trans ?_
      rintro ds s₁ - ⟨pairs, rfl, rfl, knownDomain, widens₁⟩
      refine (leads_nativeSort follows range s₁).bind follows.trans ?_
      rintro r s₂ - ⟨knownRange, widens₂⟩
      have widens : Widens (sizeOf (pairs.map Prod.fst) + sizeOf range) s s₂ :=
        (widens₁.mono (by omega)).trans (widens₂.mono (by omega))
      have handed : ∀ p ∈ (range, r) :: pairs, s₂.session.sorts[p.1]? = some p.2 :=
        List.forall_mem_cons.mpr ⟨knownRange, fun p hp => widens₂.kept _ _ (knownDomain p hp)⟩
      refine leads_firstUse follows (.makeFunctionSort pairs (range, r)) trivial rfl handed
        rfl absent widens ?_
      rw [LogicSort.function.sizeOf_spec]
      omega
    | uninterpreted | datatype => exact leads_throw (follows.refl s) (follows.undeclared _)
    | param | unresolved => exact leads_throw (follows.refl s) (follows.abstract _)
theorem leads_nativeSorts (follows : FollowsUses R F) (sorts : List LogicSort) (s : Solver σ S T) :
    Leads R F (nativeSorts sorts) s fun made s' => ∃ pairs : List (LogicSort × S),
      pairs.map Prod.fst = sorts ∧ pairs.map Prod.snd = made ∧
        (∀ p ∈ pairs, s'.session.sorts[p.1]? = some p.2) ∧ Widens (sizeOf sorts) s s' := by
  cases sorts with
  | nil =>
    rw [nativeSorts]
    exact leads_pure (follows.refl s) ⟨[], rfl, rfl, List.forall_mem_nil _, .refl _ s⟩
  | cons sort rest =>
    rw [nativeSorts]
    refine (leads_nativeSort follows sort s).bind follows.trans ?_
    rintro made s₁ - ⟨known, widens₁⟩
    refine (leads_nativeSorts follows rest s₁).bind follows.trans ?_
    rintro others s₂ - ⟨pairs, rfl, rfl, knownRest, widens₂⟩
    refine leads_pure (follows.refl s₂) ⟨(sort, made) :: pairs, rfl, rfl, ?_, ?_⟩
    · exact List.forall_mem_cons.mpr ⟨widens₂.kept _ _ known, knownRest⟩
    · have larger := List.cons.sizeOf_spec sort (pairs.map Prod.fst)
      exact (widens₁.mono (by omega)).trans (widens₂.mono (by omega))
end

end Solver

end FormulaGraph
