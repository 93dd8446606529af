import FormulaGraph.Proofs.Solver.CoupledCalls
import FormulaGraph.Proofs.Solver.StackedQueries

/-!
Values of models in a solver on top of another. What the engine reports is wrapped below and then
once more above, where a whole array is wrapped below before any of it is wrapped above.
-/

namespace FormulaGraph

open FormulaGraph.Action

theorem SortArbiter.coerce_coerce (a : SortArbiter) (sort : LogicSort) (l : Literal) :
    a.coerce sort (a.coerce sort l) = a.coerce sort l := by
  fun_cases SortArbiter.coerce a sort l with
  | case1 bits aliasing => rfl
  | case2 bits aliasing => rw [coerce, if_neg aliasing]
  | case3 sort l other => rw [coerce]; exact other

namespace Solver

variable {α α' β β' γ δ : Type} {n : Stacked} {m : Direct} {s : Session LogicSort Term} {t : Term}
  {sort index element : LogicSort} {v : Term} {l : Literal}

/-- What this wraps below and that wraps above comes to what is wrapped directly, whatever is done
below in the meantime. Wrapping never fails. -/
def Wraps (below : Action Direct α) (above : α → Action Stacked β)
    (direct : Action Direct β) : Prop :=
  ∀ (e : Enumerator) (i r : Session LogicSort Handle), (∃ s, Session.Levels i s r) →
    ∃ a b i' r', below ⟨e, i⟩ = .ok a ⟨e, i'⟩ ∧ direct ⟨e, r⟩ = .ok b ⟨e, r'⟩ ∧
      ∀ s, Session.Levels i s r → ∃ s', (∀ j, above a ⟨j, s⟩ = .ok b ⟨j, s'⟩) ∧
        Session.Levels i' s' r'

theorem wrapValue_wrapped (kind : v.kind = .value l)
    (settled : s.arbiter.coerce sort l = l) (j : Direct) :
    wrapValue v sort (⟨j, s⟩ : Stacked) = leaf sort (.value l) [] v ⟨j, s⟩ := by
  have literal : (Engine.literal j v : Option Literal) = some l := by
    show v.literal? = some l
    rw [Term.literal?, kind]
  have read : Engine.reading s.arbiter.aliasing j v sort = l := by
    rw [Engine.reading, literal]
    exact settled
  rw [wrapValue_eq_reading, read]

theorem coerce_reading (arbiter : SortArbiter) (e : Enumerator) (h : Handle) (sort : LogicSort) :
    arbiter.coerce sort (Engine.reading arbiter.aliasing e h sort) =
      Engine.reading arbiter.aliasing e h sort := by
  unfold Engine.reading
  cases Engine.literal e h with
  | some l => exact SortArbiter.coerce_coerce arbiter sort l
  | none => exact SortArbiter.coerce.eq_2 _ _ _ fun _ _ same => by cases same

theorem wraps_value (h : Handle) (proper : sort.Proper) :
    Wraps (wrapValue h sort) (wrapValue · sort) (wrapValue h sort) := by
  rintro e i r ⟨s, levels⟩
  have same : r.arbiter.aliasing = i.arbiter.aliasing :=
    levels.aliasing.2.trans levels.aliasing.1.symm
  have below := wrapValue_eq_reading h sort ⟨e, i⟩
  have direct := wrapValue_eq_reading h sort ⟨e, r⟩
  dsimp only at below direct
  rw [same] at direct
  refine ⟨_, _, _, _, below.trans (update_apply _ _),
    direct.trans (update_apply _ _), fun s levels => ?_⟩
  have settled := coerce_reading s.arbiter e h sort
  rw [← levels.aliasing.1] at settled
  generalize Engine.reading i.arbiter.aliasing e h sort = l at settled ⊢
  have formed : (s.candidate .null sort (.value l) []).Formed := ⟨rfl, rfl⟩
  have interns := levels.intern .null (.value l) (fun _ hc => absurd hc List.not_mem_nil)
    (fun _ hc => absurd hc List.not_mem_nil) rfl formed proper Op.null_proper h
  refine ⟨_, fun j => ?_, interns.levels⟩
  exact (wrapValue_wrapped interns.kind settled j).trans
    (congrArg (EStateM.Result.ok · _) interns.same.symm)

theorem Wraps.map {below : Action Direct α} {above : α → Action Stacked β}
    {direct : Action Direct β}
    (wraps : Wraps below above direct) (f : α → γ) (f' : β → δ) {whole : γ → Action Stacked δ}
    (same : ∀ a, whole (f a) = f' <$> above a) : Wraps (f <$> below) whole (f' <$> direct) := by
  intro e i r levels
  obtain ⟨a, b, i', r', ran, ran', wrapped⟩ := wraps e i r levels
  refine ⟨f a, f' b, i', r', map_ok ran, map_ok ran', fun s levels => ?_⟩
  obtain ⟨s', above, levels'⟩ := wrapped s levels
  exact ⟨s', fun j => by rw [same, map_ok (above j)], levels'⟩

theorem Wraps.pair {below : Action Direct α} {above : α → Action Stacked β}
    {direct : Action Direct β}
    {below' : Action Direct α'} {above' : α' → Action Stacked β'} {direct' : Action Direct β'}
    (first : Wraps below above direct) (second : Wraps below' above' direct')
    (f : α → α' → γ) (f' : β → β' → δ) {whole : γ → Action Stacked δ}
    (same : ∀ a a', whole (f a a') = do
      let b ← above a
      return f' b (← above' a')) :
    Wraps (do
        let a ← below
        return f a (← below')) whole (do
        let b ← direct
        return f' b (← direct')) := by
  rintro e i r ⟨s, levels⟩
  obtain ⟨a, b, i₁, r₁, ran, ran', wrapped⟩ := first e i r ⟨s, levels⟩
  obtain ⟨s₁, -, levels₁⟩ := wrapped s levels
  obtain ⟨a', b', i₂, r₂, ran₂, ran₂', wrapped'⟩ := second e i₁ r₁ ⟨s₁, levels₁⟩
  refine ⟨f a a', f' b b', i₂, r₂, ?_, ?_, fun s levels => ?_⟩
  · rw [bind_ok ran, bind_ok ran₂]
    rfl
  · rw [bind_ok ran', bind_ok ran₂']
    rfl
  · obtain ⟨s₁, above₁, levels₁⟩ := wrapped s levels
    obtain ⟨s₂, above₂, levels₂⟩ := wrapped' s₁ levels₁
    refine ⟨s₂, fun j => ?_, levels₂⟩
    rw [same, bind_ok (above₁ j), bind_ok (above₂ j)]
    rfl

theorem Wraps.all {f : γ → Action Direct α} {g : α → Action Stacked β} {f' : γ → Action Direct β}
    (each : ∀ c, Wraps (f c) g (f' c)) (cs : List γ) :
    Wraps (cs.mapM f) (·.mapM g) (cs.mapM f') := by
  induction cs with
  | nil => exact fun e i r _ => ⟨[], [], i, r, rfl, rfl, fun s levels => ⟨s, fun _ => rfl, levels⟩⟩
  | cons c cs ih =>
    rw [List.mapM_cons, List.mapM_cons]
    exact (each c).pair ih List.cons List.cons fun a as => List.mapM_cons

theorem wraps_cell (ofIndex : index.Proper) (ofElement : element.Proper) (p : Handle × Handle) :
    Wraps (wrapCell index element p) (wrapCell index element) (wrapCell index element p) :=
  (wraps_value p.1 ofIndex).pair (wraps_value p.2 ofElement) Prod.mk Prod.mk fun _ _ => rfl

theorem wraps_cells (ofIndex : index.Proper) (ofElement : element.Proper)
    (cells : List (Handle × Handle)) :
    Wraps (cells.mapM (wrapCell index element)) (·.mapM (wrapCell index element))
      (cells.mapM (wrapCell index element)) :=
  .all (wraps_cell ofIndex ofElement) cells

section Models

variable {σ S T : Type} [BEq T] [Hashable T] [Engine σ S T]

/-- The base of an array model and then its cells. -/
def wrapParts (index element : LogicSort) (b : T) (cells : List (T × T)) :
    Action (Solver σ S T) (Term × List (Term × Term)) := do
  let base ← wrapValue b element
  return (base, ← cells.mapM (wrapCell index element))

def wrapModel (index element : LogicSort) (raw : ArrayModel T) :
    Action (Solver σ S T) (ArrayModel Term) := do
  let base ← wrapBase raw.base element
  let cells ← raw.cells.mapM (wrapCell index element)
  return ⟨base, cells⟩

theorem wrapModel_none (cells : List (T × T)) :
    (wrapModel index element ⟨none, cells⟩ : Action (Solver σ S T) _) =
      ArrayModel.mk none <$> cells.mapM (wrapCell index element) := by
  simp only [wrapModel, wrapBase, pure_bind, map_eq_pure_bind]

theorem wrapModel_some (b : T) (cells : List (T × T)) :
    (wrapModel index element ⟨some b, cells⟩ : Action (Solver σ S T) _) = (do
      let sort ← onEngine (Engine.sortOf b)
      if sort.isArray then throw (.unsupported .nestedConstantBase)
      else (fun p => ⟨some p.1, p.2⟩) <$> wrapParts index element b cells) := by
  simp only [wrapModel, wrapBase, wrapParts, bind_assoc, map_bind, map_pure]
  refine congrArg _ (funext fun sort => ?_)
  split
  · rfl
  · simp

theorem getArrayValues_eq (array : t.sort.expectArray = .ok (index, element)) (s : Solver σ S T) :
    getArrayValues t s = (do
      let native ← native t
      let raw ← onEngine (Engine.getArrayValues native)
      wrapModel index element raw) s := by
  rw [getArrayValues, array, ofExcept_then]
  rfl

theorem sort_wrapValue {s s' : Solver σ S T} {h : T} (interned : s.session.Interned)
    (run : wrapValue h sort s = .ok v s') : v.sort = sort := by
  cases run
  have formed (l : Literal) : (s.session.candidate .null sort (.value l) []).Formed := ⟨rfl, rfl⟩
  exact (interned.intern (fun _ hc => absurd hc List.not_mem_nil) (formed _) h).structure_eq.2.1

theorem sort_wrapParts {s s' : Solver σ S T} {b : T} {cells : List (T × T)}
    {p : Term × List (Term × Term)}
    (interned : s.session.Interned) (run : wrapParts index element b cells s = .ok p s') :
    p.1.sort = element := by
  obtain ⟨base, s₁, wrapped, rest⟩ := of_bind_ok run
  obtain ⟨cells', s₂, -, rest⟩ := of_bind_ok rest
  cases rest
  exact sort_wrapValue interned wrapped

end Models

theorem wraps_parts (ofIndex : index.Proper) (ofElement : element.Proper) (b : Handle)
    (cells : List (Handle × Handle)) :
    Wraps (wrapParts index element b cells) (fun p => wrapParts index element p.1 p.2)
      (wrapParts index element b cells) :=
  (wraps_value b ofElement).pair (wraps_cells ofIndex ofElement cells) Prod.mk
    Prod.mk fun _ _ => rfl

/-- What wraps below and above alike is done alike. -/
theorem Wraps.alike {below : Action Direct α} {above : α → Action Stacked β}
    {direct : Action Direct β}
    (wraps : Wraps below above direct) {i : Direct} (level : Level ⟨i, s⟩ m) :
    Level.Alike ((onEngine below >>= above) ⟨i, s⟩) (direct m) := by
  obtain ⟨e, i⟩ := i
  obtain ⟨e', r⟩ := m
  obtain ⟨engines, levels⟩ := level
  obtain rfl : e' = e := engines
  obtain ⟨a, b, i', r', ran, ran', wrapped⟩ := wraps e' i r ⟨s, levels⟩
  obtain ⟨notices, run⟩ := stacked_ok ran s
  obtain ⟨s', above, levels'⟩ :=
    wrapped { s with notices } (levels.quiet i.notices notices r.notices)
  rw [bind_ok run, above, ran']
  exact .ok ⟨rfl, levels'.quiet #[] s'.notices r'.notices⟩ rfl

namespace Level

theorem readValue (level : Level n m) (genuine : n.session.Genuine t)
    (plain : t.sort.isArray = false) :
    Alike (Solver.getValue t n) (Solver.getValue t m) := by
  unfold Solver.getValue
  rw [plain]
  refine Concur.bind (level.native genuine) ?_
  rintro v h ⟨i, s⟩ m level ⟨rfl, rfl, stands⟩
  have proper : t.sort.Proper := level.sessions.proper_sort stands.has
  have sorts : v.sort = t.sort := (Term.shape_eq_iff.mp stands.shape).2.1
  have below : (Engine.getValue v : Action Direct Term) i = ((do
      let value ← Solver.onEngine (Engine.getValue h)
      Solver.wrapValue value t.sort) : Action Direct Term) i := by
    show Solver.getValue v i = _
    rw [Solver.getValue, sorts, plain]
    exact bind_ok (level.native_below stands)
  rw [bind_of_eq (onEngine_congr below s)]
  refine Concur.below (level.onEngine _) ?_
  rintro _ value i m level ⟨rfl, -⟩
  exact (wraps_value value proper).alike level

/-- A base that is an array is refused below already. Any other is of the element's sort once it is
wrapped, so above it is not refused either. -/
theorem wrapModel {i : Direct} (level : Level ⟨i, s⟩ m) (ofIndex : index.Proper)
    (ofElement : element.Proper) {raw : ArrayModel Handle}
    (told : ∀ b ∈ raw.base, ∃ reported, Enumerator.sortOf b i.engine = .ok reported i.engine ∧
      reported.isArray = element.isArray) :
    Alike ((Solver.onEngine (Solver.wrapModel index element raw) >>= Solver.wrapModel index element)
      ⟨i, s⟩)
      (Solver.wrapModel index element raw m) := by
  obtain ⟨base, cells⟩ := raw
  cases base with
  | none =>
    rw [wrapModel_none]
    have wraps :=
      (wraps_cells ofIndex ofElement cells).map (ArrayModel.mk none) (ArrayModel.mk none)
        fun _ => wrapModel_none (σ := Direct) _
    exact wraps.alike level
  | some b =>
    obtain ⟨reported, report, same⟩ := told b rfl
    rw [wrapModel_some]
    refine Concur.below (level.onEngine _) ?_
    rintro _ sort i m level ⟨rfl, called, -, -⟩
    obtain rfl : reported = sort := by injection report.symm.trans called
    cases array : element.isArray with
    | true =>
      rw [if_pos (same.trans array)]
      exact .error _ level.withEngine
    | false =>
      have plain : ¬ reported.isArray = true := by rw [same, array]; exact Bool.false_ne_true
      rw [if_neg plain]
      obtain ⟨e, i⟩ := i
      obtain ⟨e', r⟩ := m
      obtain ⟨engines, levels⟩ := level
      obtain rfl : e' = e := engines
      obtain ⟨⟨v, vs⟩, p, i', r', ran, ran', wrapped⟩ :=
        wraps_parts ofIndex ofElement b cells e' i r ⟨s, levels⟩
      have sort : v.sort = element := sort_wrapParts levels.below ran
      have modelled := map_ok (f := fun p => (⟨some p.1, p.2⟩ : ArrayModel Term)) ran
      obtain ⟨notices, run⟩ := stacked_ok modelled s
      rw [bind_ok run, wrapModel_some, map_ok ran']
      obtain ⟨notices', reports⟩ := stacked_ok (i := ⟨e', { i' with notices := #[] }⟩)
        (rfl : (Engine.sortOf v : Action Direct LogicSort) _ = .ok v.sort _) { s with notices }
      obtain ⟨s', above, levels⟩ :=
        wrapped { s with notices := notices' } (levels.quiet i.notices _ r.notices)
      rw [bind_ok reports, if_neg (by rw [sort, array]; exact Bool.false_ne_true), map_ok (above _)]
      exact .ok ⟨rfl, levels.quiet #[] s'.notices r'.notices⟩ rfl

theorem getArrayValues (level : Level n m) (coherent : m.Coherent Enumerator.contract)
    (genuine : n.session.Genuine t) :
    Alike (Solver.getArrayValues t n) (Solver.getArrayValues t m) := by
  cases array : t.sort.expectArray with
  | error e =>
    rw [Solver.getArrayValues, Solver.getArrayValues, array]
    exact .error e level
  | ok sorts =>
    obtain ⟨index, element⟩ := sorts
    have arrays := LogicSort.eq_of_expectArray array
    rw [getArrayValues_eq array, getArrayValues_eq array]
    refine Concur.bind (level.native genuine) ?_
    rintro v h ⟨i, s⟩ m level ⟨rfl, rfl, stands⟩
    have known : m.session.Has t := by
      rw [Session.Has, level.sessions.table]
      exact stands.has
    obtain ⟨_, -, named⟩ := coherent.mirrored.names t h known stands.direct
    rw [level.engine] at named
    have proper : (LogicSort.array index element).Proper :=
      arrays ▸ level.sessions.proper_sort stands.has
    cases proper with
    | array ofIndex ofElement =>
      have sort : v.sort = t.sort := (Term.shape_eq_iff.mp stands.shape).2.1
      have below : (Engine.getArrayValues v : Action Direct (ArrayModel Term)) i = ((do
          let raw ← Solver.onEngine (Engine.getArrayValues h)
          Solver.wrapModel index element raw) : Action Direct (ArrayModel Term)) i := by
        show Solver.getArrayValues v i = _
        rw [getArrayValues_eq (sort ▸ array)]
        exact bind_ok (level.native_below stands)
      rw [bind_of_eq (onEngine_congr below s)]
      have valid := coherent.mirrored.valid
      have aliases := coherent.mirrored.aliases
      rw [level.engine] at valid aliases
      have led :=
        Enumerator.contract_honoured.getArrayValues i.engine h _ index element _ named
          arrays aliases valid
      refine Concur.below (level.onEngine _) ?_
      rintro _ raw i m level ⟨rfl, called, -, -⟩
      have made := led.answer called
      refine level.wrapModel ofIndex ofElement fun b hb => ?_
      obtain ⟨node, found, -⟩ := made.2.base b hb _ (Enumerator.contract_honoured.refl _)
      exact Enumerator.sortOf_of_found found

end Level

end Solver

end FormulaGraph
