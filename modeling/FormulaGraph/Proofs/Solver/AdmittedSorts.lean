import FormulaGraph.Proofs.Op.Origin
import FormulaGraph.Proofs.Solver.Evolution
import FormulaGraph.Proofs.Solver.FailedRequests
import FormulaGraph.Proofs.Solver.Transfer

/-!
Which sorts a session admits. There are two ways for a sort to come into use. A request that needs a
sort has it made on the way, along with its parts; this goes well just if nothing in the sort is
abstract, and what is declared in it has been declared. Or the constructors of sorts are called one
after the other, on sorts that they have made before; this leads to just those admitted sorts that
are proper. So the two ways agree, except that on the way nobody asks for a bit-vector's bits or a
function's arguments.
-/

namespace FormulaGraph

theorem LogicSort.Declared.parts {sort : LogicSort} (declared : sort.Declared) :
    sort.parts = [] := by
  cases sort with
  | uninterpreted | datatype => rfl
  | _ => exact declared.elim

theorem LogicSort.Declared.proper {sort : LogicSort} (declared : sort.Declared) : sort.Proper := by
  cases sort with
  | uninterpreted name arity => exact .uninterpreted name arity
  | datatype name => exact .datatype name
  | _ => exact declared.elim

namespace Solver

open FormulaGraph.Action

section InUse

variable {σ S T : Type} [BEq T] [Hashable T] {s s' : Solver σ S T} {sort : LogicSort}

/-- What is in use is not abstract, and its parts are in use. -/
def PartsInUse (s : Solver σ S T) : Prop :=
  ∀ sort ∈ s.session.sorts,
    (sort.Constructed ∨ sort.Declared) ∧ ∀ part ∈ sort.parts, part ∈ s.session.sorts

theorem PartsInUse.insert (parts : s.PartsInUse) (concrete : sort.Constructed ∨ sort.Declared)
    (inUse : ∀ part ∈ sort.parts, part ∈ s.session.sorts) {made : S}
    (same : s'.session.sorts = s.session.sorts.insert sort made) : s'.PartsInUse := by
  intro other used
  have kept : ∀ c ∈ s.session.sorts, c ∈ s'.session.sorts := fun c hc => by
    rw [same]
    exact Std.HashMap.mem_insert.mpr (.inr hc)
  rw [same] at used
  cases Std.HashMap.mem_insert.mp used with
  | inl same =>
    rw [← eq_of_beq same]
    exact ⟨concrete, fun part hp => kept part (inUse part hp)⟩
  | inr used =>
    exact ⟨(parts other used).1, fun part hp => kept part ((parts other used).2 part hp)⟩

theorem PartsInUse.change (parts : s.PartsInUse) (change : Change s s') : s'.PartsInUse := by
  cases change with
  | quiet change =>
    cases change with
    | called | derived => exact parts
    | sortUsed _ constructed inUse => exact parts.insert (.inl constructed) inUse rfl
  | interned =>
    unfold Session.intern
    dsimp only
    split <;> exact parts
  | named | assumed | drawn => exact parts
  | sortDeclared _ declared =>
    refine parts.insert (.inr declared) (fun part hp => ?_) rfl
    rw [declared.parts] at hp
    exact absurd hp List.not_mem_nil
  | renewed => exact fun _ used => absurd used Std.HashMap.not_mem_empty

variable [Engine σ S T]

theorem Run.partsInUse {start : σ → Prop} {issued : List Term} (run : Run start s issued) :
    s.PartsInUse :=
  run.invariant (fun _ _ _ _ used => absurd used Std.HashMap.not_mem_empty) fun _ _ change parts =>
    parts.change change

end InUse

section Admission

variable {σ S T : Type} [BEq T] [Hashable T] {s s' : Solver σ S T} {sort : LogicSort}
    {sorts : List LogicSort}

/-- Nothing in the sort is abstract, and what is declared in it is there. -/
inductive Admits (s : Solver σ S T) : LogicSort → Prop
  | bool : Admits s .bool
  | int : Admits s .int
  | real : Admits s .real
  | bitVec (width : UInt64) : Admits s (.bitVec width)
  | array {index element : LogicSort} (ofIndex : Admits s index) (ofElement : Admits s element) :
      Admits s (.array index element)
  | function {domain : List LogicSort} {range : LogicSort}
      (ofDomain : ∀ part ∈ domain, Admits s part)
      (ofRange : Admits s range) : Admits s (.function domain range)
  | declared {sort : LogicSort} (declared : sort.Declared) (known : s.session.hasSort sort = true) :
      Admits s sort

theorem Admits.congr (admits : s.Admits sort)
    (same : ∀ sort, s'.session.hasSort sort = s.session.hasSort sort) : s'.Admits sort := by
  induction admits with
  | bool => exact .bool
  | int => exact .int
  | real => exact .real
  | bitVec width => exact .bitVec width
  | array _ _ ofIndex ofElement => exact .array ofIndex ofElement
  | function _ _ ofDomain ofRange => exact .function ofDomain ofRange
  | declared declared known => exact .declared declared ((same _).trans known)

/-- Quiet changes declare nothing. -/
theorem admits_iff (quietly : QuietChanges s s') : s'.Admits sort ↔ s.Admits sort :=
  ⟨fun admits => admits.congr fun sort => (quietly.unmoved.hasSort sort).symm,
    fun admits => admits.congr quietly.unmoved.hasSort⟩

theorem hasSort_of_used (used : sort ∈ s.session.sorts) : s.session.hasSort sort = true := by
  unfold Session.hasSort
  split
  · exact Std.HashMap.contains_iff_mem.mpr used
  · exact Std.HashMap.contains_iff_mem.mpr used
  · rfl

mutual
theorem PartsInUse.admits (parts : s.PartsInUse) (sort : LogicSort)
    (used : sort ∈ s.session.sorts) :
    s.Admits sort := by
  obtain ⟨concrete, inUse⟩ := parts sort used
  cases sort with
  | bool => exact .bool
  | int => exact .int
  | real => exact .real
  | bitVec width => exact .bitVec width
  | array index element =>
    have ofElement := inUse element (List.mem_cons_of_mem _ List.mem_cons_self)
    exact .array (parts.admits index (inUse index List.mem_cons_self))
      (parts.admits element ofElement)
  | function domain range =>
    exact .function (parts.admitsAll domain fun part hp => inUse part (List.mem_cons_of_mem _ hp))
      (parts.admits range (inUse range List.mem_cons_self))
  | uninterpreted | datatype => exact .declared trivial (hasSort_of_used used)
  | param | unresolved => exact (concrete.elim id id).elim
theorem PartsInUse.admitsAll (parts : s.PartsInUse) (sorts : List LogicSort)
    (used : ∀ sort ∈ sorts, sort ∈ s.session.sorts) : ∀ sort ∈ sorts, s.Admits sort := by
  cases sorts with
  | nil => exact fun _ none => absurd none List.not_mem_nil
  | cons sort rest =>
    obtain ⟨first, others⟩ := List.forall_mem_cons.mp used
    exact List.forall_mem_cons.mpr ⟨parts.admits sort first, parts.admitsAll rest others⟩
end

/-- On whatever engine, a sort that was made is one that is admitted. -/
theorem admits_of_nativeSort [Engine σ S T] (parts : s.PartsInUse)
    (sorted : Succeeds (nativeSort sort) s fun _ _ => True) : s.Admits sort := by
  obtain ⟨made, s', run, -⟩ := sorted
  obtain ⟨quietly, used, -⟩ := (quiet_nativeSort sort s).answer run
  -- What was made is in use with all its parts, and whatever is declared in it was declared before.
  have parts' : s'.PartsInUse :=
    Changes.keep (fun _ _ change parts => parts.change change) (QuietChanges.changes quietly) parts
  exact (admits_iff quietly).mp (parts'.admits sort used)

end Admission

section OnDemand

variable {s s' : Solver Enumerator LogicSort Handle} {sort : LogicSort} {sorts : List LogicSort}

theorem succeeds_nativeSorts (each : ∀ sort ∈ sorts, ∀ s', QuietChanges s s' →
      Succeeds (nativeSort sort) s' fun _ _ => True) (quietly : QuietChanges s s') :
    Succeeds (nativeSorts sorts) s' fun _ _ => True := by
  induction sorts generalizing s' with
  | nil =>
    rw [nativeSorts]
    exact succeeds_pure trivial
  | cons sort rest ih =>
    obtain ⟨first, others⟩ := List.forall_mem_cons.mp each
    rw [nativeSorts]
    refine ((quiet_nativeSort sort s').and (first s' quietly)).bind ?_
    rintro made s₁ ⟨later, -⟩
    exact (ih others (quietly.trans later)).bind fun _ _ _ => succeeds_pure trivial

theorem Admits.nativeSort (admits : s.Admits sort) (quietly : QuietChanges s s') :
    Succeeds (nativeSort sort) s' fun _ _ => True := by
  induction admits generalizing s' with
  | bool | int | real | bitVec =>
    rw [Solver.nativeSort]
    refine succeeds_get ?_
    split
    · exact succeeds_pure trivial
    · exact ⟨_, _, rfl, trivial⟩
  | array _ _ ofIndex ofElement =>
    rw [Solver.nativeSort]
    refine succeeds_get ?_
    split
    · exact succeeds_pure trivial
    · refine ((quiet_nativeSort _ s').and (ofIndex quietly)).bind ?_
      rintro _ s₁ ⟨later, -⟩
      exact (ofElement (quietly.trans later)).bind fun _ _ _ => ⟨_, _, rfl, trivial⟩
  | function _ _ ofDomain ofRange =>
    rw [Solver.nativeSort]
    refine succeeds_get ?_
    split
    · exact succeeds_pure trivial
    · have domain :=
        succeeds_nativeSorts (fun part hp s' quietly => ofDomain part hp quietly) quietly
      refine ((quiet_nativeSorts _ s').and domain).bind ?_
      rintro _ s₁ ⟨later, -⟩
      exact (ofRange (quietly.trans later)).bind fun _ _ _ => ⟨_, _, rfl, trivial⟩
  | @declared sort declared known =>
    have there : sort ∈ s'.session.sorts := by
      rw [← quietly.unmoved.hasSort] at known
      cases sort with
      | uninterpreted | datatype => exact Std.HashMap.contains_iff_mem.mp known
      | _ => exact declared.elim
    exact nativeSort_succeeds (.inl there)

theorem nativeSort_succeeds_iff (parts : s.PartsInUse) :
    (Succeeds (nativeSort sort) s fun _ _ => True) ↔ s.Admits sort :=
  ⟨admits_of_nativeSort parts, fun admits => admits.nativeSort .refl⟩

theorem withNative_succeeds_iff :
    (Succeeds (withNative sort) s fun _ _ => True) ↔
    Succeeds (nativeSort sort) s fun _ _ => True := by
  have made : (Succeeds (discard (nativeSort sort)) s fun _ _ => True) ↔ _ := succeeds_map_iff
  refine ⟨fun sorted => made.mp sorted.of_bind, fun sorted => ?_⟩
  exact (made.mpr sorted).bind fun _ _ _ => succeeds_pure trivial

theorem makeFunctionSort_eq {domain : List LogicSort} {range : LogicSort}
    (arguments : domain ≠ []) :
    (makeFunctionSort domain range : Action (Solver Enumerator LogicSort Handle) LogicSort) =
      withNative (.function domain range) := by
  unfold makeFunctionSort
  rw [if_neg fun empty => arguments (List.isEmpty_iff.mp empty)]

/-- The request is for something of the sort, or for the sort itself as made of given parts, and it
would be served if it were not for the sort. -/
inductive Demands (s : Solver Enumerator LogicSort Handle) (sort : LogicSort) : Request → Prop
  | symbol {name : String} (free : name ∉ s.session.symbols) :
      Demands s sort (.command (.makeSymbol name sort))
  | literal {q : Request} {l l' : Literal}
      (asks : q.perform s = (.term <$> makeValue l sort : Action _ (Answer LogicSort Term)) s)
      (fits : l.fits sort = true) (normal : l.normalize sort = .ok l') : Demands s sort q
  | constArray {fill : Term} {index : LogicSort} (known : s.session.Has fill)
      (same : sort = .array index fill.sort) : Demands s sort (.command (.makeConstArray fill sort))
  | array {index element : LogicSort} (same : sort = .array index element) :
      Demands s sort (.command (.makeArraySort index element))
  | function {domain : List LogicSort} {range : LogicSort} (arguments : domain ≠ [])
      (same : sort = .function domain range) :
        Demands s sort (.command (.makeFunctionSort domain range))

theorem Demands.succeeds_iff {q : Request} (demands : s.Demands sort q)
    (coherent : s.Coherent Enumerator.contract) (tidy : s.Tidy) :
    (Succeeds q.perform s fun _ _ => True) ↔ Succeeds (nativeSort sort) s fun _ _ => True := by
  cases demands with
  | @symbol name free =>
    have unknown : s.session.symbols[name]? = none := Std.HashMap.getElem?_eq_none free
    exact succeeds_map_iff.trans (makeSymbol_succeeds_iff coherent tidy unknown)
  | literal asks fits normal =>
    rw [Succeeds, asks]
    exact succeeds_map_iff.trans (makeValue_succeeds_iff fits normal)
  | constArray known same =>
    subst same
    exact succeeds_map_iff.trans (makeConstArray_succeeds_iff coherent known)
  | array same =>
    subst same
    exact succeeds_map_iff.trans withNative_succeeds_iff
  | @function domain range arguments same =>
    subst same
    have made : (Succeeds (makeFunctionSort domain range) s fun _ _ => True) ↔ _ :=
      makeFunctionSort_eq arguments ▸ withNative_succeeds_iff
    exact succeeds_map_iff.trans made

end OnDemand

section Building

variable {σ S T : Type} [BEq T] [Hashable T] [Engine σ S T]

/-- The sorts that have been made, the latest first, by the constructors of sorts, from such as were
made before and from declared ones. -/
inductive Builds (s : Solver σ S T) : List LogicSort → Solver σ S T → Prop
  | start : Builds s [] s
  | declared {built : List LogicSort} {s' : Solver σ S T} {sort : LogicSort}
      (before : Builds s built s')
      (declared : sort.Declared) (known : s'.session.hasSort sort = true) :
        Builds s (sort :: built) s'
  | basic {built : List LogicSort} {s' s'' : Solver σ S T} {kind : SortKind} {sort : LogicSort}
      (before : Builds s built s') (made : makeSort kind s' = .ok sort s'') :
        Builds s (sort :: built) s''
  | bitVec {built : List LogicSort} {s' s'' : Solver σ S T} {width : UInt64} {sort : LogicSort}
      (before : Builds s built s') (made : makeBitVecSort width s' = .ok sort s'') :
        Builds s (sort :: built) s''
  | array {built : List LogicSort} {s' s'' : Solver σ S T} {index element sort : LogicSort}
      (before : Builds s built s') (ofIndex : index ∈ built) (ofElement : element ∈ built)
      (made : makeArraySort index element s' = .ok sort s'') : Builds s (sort :: built) s''
  | function {built : List LogicSort} {s' s'' : Solver σ S T} {domain : List LogicSort}
      {range sort : LogicSort} (before : Builds s built s')
        (ofDomain : ∀ part ∈ domain, part ∈ built)
      (ofRange : range ∈ built) (made : makeFunctionSort domain range s' = .ok sort s'') :
      Builds s (sort :: built) s''

def Buildable (s : Solver σ S T) (sort : LogicSort) :
    Prop := ∃ built s', Builds s built s' ∧ sort ∈ built

variable {s s' : Solver σ S T} {sort : LogicSort} {built : List LogicSort}

/-- On whatever engine, what is built is proper and admitted. -/
theorem Builds.sound (builds : Builds s built s') :
    QuietChanges s s' ∧ ∀ sort ∈ built, s.Admits sort ∧ sort.Proper := by
  induction builds with
  | start => exact ⟨.refl, fun _ none => absurd none List.not_mem_nil⟩
  | declared _ declared known ih =>
    obtain ⟨quietly, sound⟩ := ih
    refine ⟨quietly, List.forall_mem_cons.mpr ⟨⟨?_, ?_⟩, sound⟩⟩
    · exact .declared declared (quietly.unmoved.hasSort _ ▸ known)
    · exact declared.proper
  | @basic built s' s'' kind sort _ made ih =>
    obtain ⟨quietly, sound⟩ := ih
    obtain ⟨later, basic⟩ := (quiet_makeSort kind s').answer made
    refine ⟨quietly.trans later, List.forall_mem_cons.mpr ⟨?_, sound⟩⟩
    obtain rfl | rfl | rfl := basic
    · exact ⟨.bool, .bool⟩
    · exact ⟨.int, .int⟩
    · exact ⟨.real, .real⟩
  | @bitVec built s' s'' width sort _ made ih =>
    obtain ⟨quietly, sound⟩ := ih
    obtain ⟨later, bits, rfl⟩ := (quiet_makeBitVecSort width s').answer made
    exact ⟨quietly.trans later, List.forall_mem_cons.mpr ⟨⟨.bitVec width, .bitVec bits⟩, sound⟩⟩
  | @array built s' s'' index element sort _ ofIndex ofElement made ih =>
    obtain ⟨quietly, sound⟩ := ih
    obtain ⟨later, rfl⟩ := (quiet_withNative (.array index element) s').answer made
    refine ⟨quietly.trans later, List.forall_mem_cons.mpr ⟨⟨?_, ?_⟩, sound⟩⟩
    · exact .array (sound index ofIndex).1 (sound element ofElement).1
    · exact .array (sound index ofIndex).2 (sound element ofElement).2
  | @function built s' s'' domain range sort _ ofDomain ofRange made ih =>
    obtain ⟨quietly, sound⟩ := ih
    obtain ⟨later, arguments, rfl⟩ := (quiet_makeFunctionSort domain range s').answer made
    refine ⟨quietly.trans later, List.forall_mem_cons.mpr ⟨⟨?_, ?_⟩, sound⟩⟩
    · exact .function (fun part hp => (sound part (ofDomain part hp)).1) (sound range ofRange).1
    · exact .function arguments (fun part hp => (sound part (ofDomain part hp)).2)
        (sound range ofRange).2

end Building

section OverEnumerator

variable {s s' : Solver Enumerator LogicSort Handle} {sort : LogicSort}
    {built sorts : List LogicSort}

/-- Whatever has been built, the sort can be built as well. -/
def Attainable (s : Solver Enumerator LogicSort Handle) (sort : LogicSort) : Prop :=
  ∀ built s', Builds s built s' → ∃ built' s'', Builds s built' s'' ∧ built ⊆ built' ∧ sort ∈ built'

theorem Attainable.all (each : ∀ sort ∈ sorts, s.Attainable sort) (builds : Builds s built s') :
    ∃ built' s'', Builds s built' s'' ∧ built ⊆ built' ∧ sorts ⊆ built' := by
  induction sorts generalizing built s' with
  | nil => exact ⟨built, s', builds, List.Subset.refl _, List.nil_subset _⟩
  | cons sort rest ih =>
    obtain ⟨first, others⟩ := List.forall_mem_cons.mp each
    obtain ⟨built₁, s₁, builds₁, more₁, has⟩ := first built s' builds
    obtain ⟨built₂, s₂, builds₂, more₂, all⟩ := ih others builds₁
    exact ⟨built₂, s₂, builds₂, List.Subset.trans more₁ more₂,
      List.cons_subset.mpr ⟨more₂ has, all⟩⟩

theorem attainable_of_parts (parts : ∀ part ∈ sort.parts, s.Attainable part)
    (last : ∀ built s', Builds s built s' → sort.parts ⊆ built →
      ∃ s'', Builds s (sort :: built) s'') :
    s.Attainable sort := by
  intro built s' builds
  obtain ⟨built₁, s₁, builds₁, more, all⟩ := Attainable.all parts builds
  obtain ⟨s₂, builds₂⟩ := last built₁ s₁ builds₁ all
  exact ⟨sort :: built₁, s₂, builds₂, List.subset_cons_of_subset _ more, List.mem_cons_self⟩

theorem Builds.withNative (builds : Builds s built s') (admits : s.Admits sort) :
    ∃ s'', withNative sort s' = .ok sort s'' := by
  have sorted := withNative_succeeds_iff.mpr (admits.nativeSort builds.sound.1)
  obtain ⟨made, s'', run, -, rfl, -⟩ := (quiet_withNative sort s').and sorted
  exact ⟨s'', run⟩

theorem attainable_of_basic (kind : SortKind) (none : sort.parts = []) (admits : s.Admits sort)
    (same : (makeSort kind : Action (Solver Enumerator LogicSort Handle) LogicSort) =
      withNative sort) :
    s.Attainable sort := by
  refine attainable_of_parts (fun part hp => absurd (none ▸ hp) List.not_mem_nil)
    fun built s' builds _ => ?_
  obtain ⟨s'', run⟩ := builds.withNative admits
  exact ⟨s'', builds.basic ((congrFun same s').trans run)⟩

theorem attainable_of_admits (admits : s.Admits sort) (proper : sort.Proper) :
    s.Attainable sort := by
  induction admits with
  | bool => exact attainable_of_basic .bool rfl .bool rfl
  | int => exact attainable_of_basic .int rfl .int rfl
  | real => exact attainable_of_basic .real rfl .real rfl
  | bitVec width =>
    cases proper with
    | bitVec bits =>
      refine attainable_of_parts (fun _ none => absurd none List.not_mem_nil)
        fun built s' builds _ => ?_
      obtain ⟨s'', run⟩ := builds.withNative (.bitVec width)
      have made : makeBitVecSort width s' = .ok (.bitVec width) s'' := by
        rw [makeBitVecSort, if_neg bits]
        exact run
      exact ⟨s'', builds.bitVec made⟩
  | @array index element ofIndex ofElement ihIndex ihElement =>
    cases proper with
    | array properIndex properElement =>
      refine attainable_of_parts ?_ fun built s' builds has => ?_
      · exact List.forall_mem_cons.mpr
          ⟨ihIndex properIndex, List.forall_mem_singleton.mpr (ihElement properElement)⟩
      · obtain ⟨hasIndex, others⟩ := List.cons_subset.mp has
        obtain ⟨s'', made⟩ := builds.withNative (.array ofIndex ofElement)
        exact ⟨s'', builds.array hasIndex (others List.mem_cons_self) made⟩
  | @function domain range ofDomain ofRange ihDomain ihRange =>
    cases proper with
    | function arguments properDomain properRange =>
      refine attainable_of_parts ?_ fun built s' builds has => ?_
      · exact List.forall_mem_cons.mpr
          ⟨ihRange properRange, fun part hp => ihDomain part hp (properDomain part hp)⟩
      · obtain ⟨hasRange, hasDomain⟩ := List.cons_subset.mp has
        obtain ⟨s'', run⟩ := builds.withNative (.function ofDomain ofRange)
        have made : makeFunctionSort domain range s' = .ok (.function domain range) s'' :=
          (congrFun (makeFunctionSort_eq arguments) s').trans run
        exact ⟨s'', builds.function (fun part hp => hasDomain hp) hasRange made⟩
  | @declared sort declared known =>
    refine attainable_of_parts (fun part hp => absurd (declared.parts ▸ hp) List.not_mem_nil) ?_
    intro built s' builds _
    exact ⟨s', builds.declared declared ((builds.sound.1.unmoved.hasSort sort).trans known)⟩

theorem buildable_iff : s.Buildable sort ↔ s.Admits sort ∧ sort.Proper := by
  constructor
  · rintro ⟨built, s', builds, member⟩
    exact builds.sound.2 sort member
  · rintro ⟨admits, proper⟩
    obtain ⟨built, s', builds, -, member⟩ := attainable_of_admits admits proper [] s .start
    exact ⟨built, s', builds, member⟩

/-- The two ways of bringing a sort into use admit the same sorts, as far as these are proper.
Whatever request has a sort made on the way, it goes well just if the sort is admitted: nothing in
it is abstract, and what is declared in it is there. By the constructors of sorts it can be built
just if it is proper as well. -/
theorem demanded_iff_buildable {issued : List Term} {q : Request}
    (run : Run Enumerator.Unused s issued) (demands : s.Demands sort q) :
    ((Succeeds q.perform s fun _ _ => True) ↔ s.Admits sort) ∧
      (s.Buildable sort ↔ (Succeeds q.perform s fun _ _ => True) ∧ sort.Proper) := by
  obtain ⟨coherent, tidy⟩ := run.settled
  have demanded : (Succeeds q.perform s fun _ _ => True) ↔ s.Admits sort :=
    (demands.succeeds_iff coherent tidy).trans (nativeSort_succeeds_iff run.partsInUse)
  exact ⟨demanded, buildable_iff.trans (and_congr_left' demanded.symm)⟩

/-- A new solver and the sort of a memory of bytes. -/
theorem demanded_iff_buildable_memory :
    ∃ s : Solver Enumerator LogicSort Handle, Run Enumerator.Unused s [] ∧
      (Succeeds (Request.command (.makeSymbol "x" (.array (.bitVec 32) (.bitVec 8)))).perform
        s fun _ _ => True) ∧ s.Buildable (.array (.bitVec 32) (.bitVec 8)) := by
  let s : Solver Enumerator LogicSort Handle := Solver.new (Enumerator.new "m") {}
  have run : Run Enumerator.Unused s [] := .new (Enumerator.unused_new "m") {}
  have free : "x" ∉ s.session.symbols := Std.HashMap.not_mem_empty
  obtain ⟨demanded, buildable⟩ := demanded_iff_buildable run (.symbol free)
  have accepted := demanded.mpr (.array (.bitVec 32) (.bitVec 8))
  exact ⟨s, run, accepted, buildable.mpr
    ⟨accepted, .array (.bitVec (by decide)) (.bitVec (by decide))⟩⟩

/-- Symbols of sorts that cannot be built: bit-vectors of no bits, functions of no arguments, and
what is made of them. -/
theorem demanded_unbuildable :
    ∃ s : Solver Enumerator LogicSort Handle, Run Enumerator.Unused s [] ∧ "x" ∉ s.session.symbols ∧
      ∀ sort ∈ [LogicSort.bitVec 0, .function [] .bool, .array (.bitVec 0) .bool],
        (Succeeds (Request.command (.makeSymbol "x" sort)).perform s fun _ _ => True) ∧
          ¬ s.Buildable sort := by
  let s : Solver Enumerator LogicSort Handle := Solver.new (Enumerator.new "m") {}
  have run : Run Enumerator.Unused s [] := .new (Enumerator.unused_new "m") {}
  have free : "x" ∉ s.session.symbols := Std.HashMap.not_mem_empty
  have accepted : ∀ sort, s.Admits sort →
      Succeeds (Request.command (.makeSymbol "x" sort)).perform s fun _ _ => True := by
    intro sort admits
    have demands : s.Demands sort (.command (.makeSymbol "x" sort)) := .symbol free
    exact (demands.succeeds_iff run.settled.1 run.settled.2).mpr (admits.nativeSort .refl)
  have none : ∀ part ∈ ([] : List LogicSort), s.Admits part := fun _ none =>
    absurd none List.not_mem_nil
  refine ⟨s, run, free, List.forall_mem_cons.mpr ⟨⟨accepted _ (.bitVec 0), fun built => ?_⟩,
    List.forall_mem_cons.mpr ⟨⟨accepted _ (.function none .bool), fun built => ?_⟩,
      List.forall_mem_singleton.mpr ⟨accepted _ (.array (.bitVec 0) .bool), fun built => ?_⟩⟩⟩⟩
  · cases (buildable_iff.mp built).2 with
    | bitVec bits => exact bits rfl
  · cases (buildable_iff.mp built).2 with
    | function arguments => exact arguments rfl
  · cases (buildable_iff.mp built).2 with
    | array ofIndex =>
      cases ofIndex with
      | bitVec bits => exact bits rfl

end OverEnumerator

end Solver

end FormulaGraph
