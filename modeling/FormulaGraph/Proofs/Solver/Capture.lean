import FormulaGraph.Proofs.Solver.Occurrences
import FormulaGraph.Proofs.Term.Binding

/-!
Substitution under quantifiers. It knows no binders: a quantifier is rebuilt like every other node,
and a key is replaced at each place that is reached, be it bound there or free. So the result is
what a substitution that minds binders would give just where there is nothing to mind: no symbol
that is replaced is bound, and no symbol of a replacement gets under a quantifier that binds it.
-/

namespace FormulaGraph.Solver

variable {s s' : Solver Enumerator LogicSort Handle} {m : TermMap} {q r t u v x y : Term}
    {i : Nat} {p : List Nat}
  {issued : List Term}

/-- The second term is what replacing makes of the first, as it is without capture. -/
structure CaptureFree (m : TermMap) (t u : Term) : Prop where
  /-- Quantifiers still bind nothing but symbols. -/
  binders : u.BindsSymbols
  /-- What is bound stays. -/
  bound : ∀ p x, t.at? p = some x → x.isSymbol = true → t.BoundAt p x → u.at? p = some x
  /-- What is free in the replacement of a free key stays free. -/
  free : ∀ p x v, t.shown? p = some x → m[x]? = some v → ¬ t.BoundAt p x → u.at? p = some v ∧
    ∀ p' y, v.at? p' = some y → y.isSymbol = true → ¬ v.BoundAt p' y → ¬ u.BoundAt (p ++ p') y

/-- A key that a quantifier binds is mapped to itself, if rewriting gets to the quantifier. -/
def SparesBound (m : TermMap) (t : Term) : Prop :=
  ∀ q : Term, q.Exposed t → q.Quantifies → ∀ x ∈ q.binders, ∀ v, m[x]? = some v → v = x

/-- The map has nothing to do with what the term binds. -/
structure KeptApart (m : TermMap) (t : Term) : Prop where
  bound : SparesBound m t
  /-- What is free in the replacement of a free key is not bound around the key. -/
  free : ∀ p x v, t.shown? p = some x → m[x]? = some v → ¬ t.BoundAt p x →
    ∀ p' y, v.at? p' = some y → y.isSymbol = true → ¬ v.BoundAt p' y → ¬ t.BoundAt p y
  /-- A quantifier in a replacement that is made binds symbols only. -/
  values : ∀ x v : Term, x.Exposed t → m[x]? = some v → v.BindsSymbols

theorem Ready.application_of_quantifies (ready : Ready m s) (hq : s.session.Has q)
    (quantifies : q.Quantifies) :
    q.kind = .application := by
  refine (ready.interned.formed q hq).application fun null => ?_
  rw [Term.Quantifies, null] at quantifies
  exact absurd quantifies (by decide)

theorem Ready.replaced_own (ready : Ready m s) (hx : s.session.Has x) (symbol : x.isSymbol = true)
    (own : ∀ v, m[x]? = some v → v = x) : x.replaced m = x.shape := by
  cases found : m[x]? with
  | some v => rw [Term.replaced_key found, own v found]
  | none =>
    refine Term.replaced_of_children found fun c child => ?_
    rw [ready.interned.leaf_of_symbol hx symbol] at child
    cases child

theorem image_node (absent : m[t]? = none) (node : t.isValue = false)
    (shape : u.shape = t.replaced m) :
    u.op = t.op ∧ u.children.map Term.shape = t.children.map (Term.replaced m) := by
  rw [Term.replaced_node absent node, Term.shape_eq, Shape.mk.injEq] at shape
  exact ⟨shape.1, shape.2.2.2⟩

/-- What the image of a term is made of: images of nodes that rewriting gets to, replacements, and
what is below values. -/
theorem Ready.occursIn_image (ready : Ready m s) (ht : s.session.Has t) (hu : s.session.Has u)
    (shape : u.shape = t.replaced m) (occurs : r.OccursIn u) :
    (∃ q : Term, q.Exposed t ∧ m[q]? = none ∧ r.shape = q.replaced m) ∨
      (∃ k v : Term, k.Exposed t ∧ m[k]? = some v ∧ r.OccursIn v) ∨ r.OccursIn t := by
  induction t generalizing u with
  | node t ih =>
    cases found : m[t]? with
    | some v =>
      rw [Term.replaced_key found] at shape
      have same := ready.interned.eq_of_shape hu (ready.image ht found).1 shape
      exact .inr (.inl ⟨t, v, .here, found, same ▸ occurs⟩)
    | none =>
      cases value : t.isValue with
      | true =>
        have same := shape.trans (Term.replaced_value found value)
        exact .inr (.inr (ready.interned.eq_of_shape hu ht same ▸ occurs))
      | false =>
        obtain rfl | ⟨d, below, occurs⟩ := Term.occursIn_iff.mp occurs
        · exact .inl ⟨t, .here, found, shape⟩
        obtain ⟨-, shapes⟩ := image_node found value shape
        obtain ⟨c, child, shape⟩ := List.mem_map.mp (shapes ▸ List.mem_map_of_mem below)
        have hc := (ready.interned.children t ht c child).1
        have hd := (ready.interned.children u hu d below).1
        obtain ⟨q, exposed, rest⟩ | ⟨k, v, exposed, rest⟩ | occurs :=
          ih c child hc hd shape.symm occurs
        · exact .inl ⟨q, .inChild value child exposed, rest⟩
        · exact .inr (.inl ⟨k, v, .inChild value child exposed, rest⟩)
        · exact .inr (.inr (.inChild child occurs))

section Images

variable (ready : Ready m s) (keys : OnSymbols m)
include ready keys

theorem Ready.absent_of_child {c : Term} (ht : s.session.Has t) (child : c ∈ t.children) :
    m[t]? = none := by
  by_contra present
  obtain ⟨v, found⟩ := Option.ne_none_iff_exists'.mp present
  rw [ready.interned.leaf_of_symbol ht (keys.key ready ht found)] at child
  cases child

theorem Ready.absent_of_value (ht : s.session.Has t) (value : t.isValue = true) : m[t]? = none := by
  by_contra present
  obtain ⟨v, found⟩ := Option.ne_none_iff_exists'.mp present
  obtain ⟨name, kind⟩ := Term.isSymbol_iff.mp (keys.key ready ht found)
  rw [Term.isValue, kind] at value
  cases value

/-- At a place that rewriting gets to stands the image of what stood there. -/
theorem Ready.at_image (ht : s.session.Has t) (hu : s.session.Has u)
    (shape : u.shape = t.replaced m) (shown : t.shown? p = some x) :
    s.session.Has x ∧ ∃ v, u.at? p = some v ∧ s.session.Has v ∧ v.shape = x.replaced m := by
  induction p generalizing t u with
  | nil =>
    cases shown
    exact ⟨ht, u, rfl, hu, shape⟩
  | cons i p ih =>
    obtain ⟨node, c, child, shown⟩ := Term.shown?_cons_iff.mp shown
    have member := List.mem_of_getElem? child
    obtain ⟨-, shapes⟩ := image_node (ready.absent_of_child keys ht member) node shape
    have place := congrArg (fun shapes => shapes[i]?) shapes
    simp only [List.getElem?_map, child, Option.map_some, Option.map_eq_some_iff] at place
    obtain ⟨d, place, shape⟩ := place
    have hd := (ready.interned.children u hu d (List.mem_of_getElem? place)).1
    obtain ⟨hx, v, found, hv, shape⟩ := ih (ready.interned.children t ht c member).1 hd shape shown
    exact ⟨hx, v, Term.at?_cons_iff.mpr ⟨d, place, found⟩, hv, shape⟩

theorem Ready.at_key (ht : s.session.Has t) (hu : s.session.Has u) (shape : u.shape = t.replaced m)
    (shown : t.shown? p = some x) (found : m[x]? = some v) : u.at? p = some v := by
  obtain ⟨hx, w, place, hw, shape⟩ := ready.at_image keys ht hu shape shown
  rw [Term.replaced_key found] at shape
  rw [place, ready.interned.eq_of_shape hw (ready.image hx found).1 shape]

/-- Every place is one that rewriting gets to, or nothing changes at it. -/
theorem Ready.shown_or_same (ht : s.session.Has t) (hu : s.session.Has u)
    (shape : u.shape = t.replaced m)
    (found : t.at? p = some x) : t.shown? p = some x ∨ u.at? p = some x := by
  induction p generalizing t u with
  | nil => exact .inl found
  | cons i p ih =>
    cases value : t.isValue with
    | true =>
      have same := shape.trans (Term.replaced_value (ready.absent_of_value keys ht value) value)
      exact .inr (ready.interned.eq_of_shape hu ht same ▸ found)
    | false =>
      obtain ⟨c, child, found⟩ := Term.at?_cons_iff.mp found
      have first : t.shown? [i] = some c := Term.shown?_cons_iff.mpr ⟨value, c, child, rfl⟩
      obtain ⟨hc, d, place, hd, shape⟩ := ready.at_image keys ht hu shape first
      refine (ih hc hd shape found).imp (fun shown => ?_) fun same => ?_
      · exact Term.shown?_cons_iff.mpr ⟨value, c, child, shown⟩
      · exact (Term.at?_append_of (p := [i]) place).trans same

end Images

theorem Ready.binders_image (ready : Ready m s) (hq : s.session.Has q) (hr : s.session.Has r)
    (shapes : r.children.map Term.shape = q.children.map (Term.replaced m))
    (symbols : ∀ x ∈ q.binders, x.isSymbol = true)
    (own : ∀ x ∈ q.binders, ∀ v, m[x]? = some v → v = x) : r.binders = q.binders := by
  have has : ∀ t : Term, s.session.Has t → ∀ x ∈ t.binders, s.session.Has x := fun t ht x hx =>
    (ready.interned.children t ht x (List.dropLast_subset _ hx)).1
  have same : r.binders.map Term.shape = q.binders.map Term.shape := by
    calc
      r.binders.map Term.shape = q.binders.map (Term.replaced m) := by
        simpa [Term.binders, List.map_dropLast] using congrArg List.dropLast shapes
      _ = q.binders.map Term.shape :=
        List.map_congr_left fun x hx => ready.replaced_own (has q hq x hx) (symbols x hx) (own x hx)
  exact ready.interned.eq_of_shapes (has r hr) (has q hq) same

theorem Ready.quantifies_image (ready : Ready m s) (hq : s.session.Has q) (hr : s.session.Has r)
    (absent : m[q]? = none) (shape : r.shape = q.replaced m)
    (symbols : q.Quantifies → ∀ x ∈ q.binders, x.isSymbol = true)
    (own : q.Quantifies → ∀ x ∈ q.binders, ∀ v, m[x]? = some v → v = x) :
    (r.Quantifies ↔ q.Quantifies) ∧ (q.Quantifies → r.binders = q.binders) := by
  cases value : q.isValue with
  | true =>
    have same := ready.interned.eq_of_shape hr hq (shape.trans (Term.replaced_value absent value))
    rw [same]
    exact ⟨Iff.rfl, fun _ => rfl⟩
  | false =>
    obtain ⟨op, shapes⟩ := image_node absent value shape
    refine ⟨by rw [Term.Quantifies, Term.Quantifies, op], fun quantifies => ?_⟩
    exact ready.binders_image hq hr shapes (symbols quantifies) (own quantifies)

section Binding

variable (ready : Ready m s) (keys : OnSymbols m) (ht : s.session.Has t) (hu : s.session.Has u)
  (shape : u.shape = t.replaced m) (binds : t.BindsSymbols)
include ready keys ht hu shape binds

/-- At a place that rewriting gets to, the same symbols are bound before and after. -/
theorem Ready.boundAt_image (spares : SparesBound m t) (shown : t.shown? p = some x) :
    u.BoundAt p y ↔ t.BoundAt p y := by
  have above : ∀ upper i lower, p = upper ++ i :: lower → ∃ q r, t.at? upper = some q ∧
    u.at? upper = some r ∧
      (r.Quantifies ↔ q.Quantifies) ∧ (q.Quantifies → r.binders = q.binders) := by
    rintro upper i lower rfl
    obtain ⟨q, shown, -, c, child⟩ := Term.shown?_of_append shown
    obtain ⟨hq, r, found, hr, shape⟩ := ready.at_image keys ht hu shape shown
    have exposed := Term.exposed_iff.mpr ⟨upper, shown⟩
    exact ⟨q, r, Term.at?_of_shown? shown, found, ready.quantifies_image hq hr
      (ready.absent_of_child keys hq child) shape (binds q exposed.occursIn) (spares q exposed)⟩
  constructor
  · rintro ⟨upper, i, lower, r', path, found', quantifies, member⟩
    obtain ⟨q, r, place, found, same, binders⟩ := above upper i lower path
    rw [found] at found'
    cases found'
    have quantifies := same.mp quantifies
    exact ⟨upper, i, lower, q, path, place, quantifies, binders quantifies ▸ member⟩
  · rintro ⟨upper, i, lower, q', path, place', quantifies, member⟩
    obtain ⟨q, r, place, found, same, binders⟩ := above upper i lower path
    rw [place] at place'
    cases place'
    exact ⟨upper, i, lower, r, path, found, same.mpr quantifies, (binders quantifies).symm ▸ member⟩

/-- A key that is bound shows in the result, unless it is its own image. -/
theorem Ready.spares_of_captureFree (free : CaptureFree m t u) : SparesBound m t := by
  intro q exposed quantifies x member v found
  obtain ⟨p, shown⟩ := Term.exposed_iff.mp exposed
  obtain ⟨hq, -⟩ := ready.at_image keys ht hu shape shown
  have kind := ready.application_of_quantifies hq quantifies
  obtain ⟨i, child⟩ := List.mem_iff_getElem?.mp (List.dropLast_subset _ member)
  have here : t.shown? (p ++ [i]) = some x := by
    rw [Term.shown?_append_of shown]
    exact Term.shown?_cons_iff.mpr ⟨by rw [Term.isValue, kind], x, child, rfl⟩
  have bound : t.BoundAt (p ++ [i]) x :=
    ⟨p, i, [], q, rfl, Term.at?_of_shown? shown, quantifies, member⟩
  have stays := free.bound (p ++ [i]) x (Term.at?_of_shown? here)
    (binds q exposed.occursIn quantifies x member) bound
  rw [ready.at_key keys ht hu shape here found] at stays
  exact Option.some.inj stays

theorem Ready.captureFree_of_keptApart (apart : KeptApart m t) : CaptureFree m t u where
  binders r occurs quantifies b member := by
    obtain ⟨q, exposed, absent, shape'⟩ | ⟨k, v, exposed, found, occurs⟩ | occurs :=
      ready.occursIn_image ht hu shape occurs
    · have hq := ready.interned.has_of_occursIn ht exposed.occursIn
      have hr := ready.interned.has_of_occursIn hu occurs
      obtain ⟨same, binders⟩ := ready.quantifies_image hq hr absent shape'
        (binds q exposed.occursIn) (apart.bound q exposed)
      have quantifies := same.mp quantifies
      exact binds q exposed.occursIn quantifies b (binders quantifies ▸ member)
    · exact apart.values k v exposed found r occurs quantifies b member
    · exact binds r occurs quantifies b member
  bound p x found symbol bound := by
    obtain shown | same := ready.shown_or_same keys ht hu shape found
    · obtain ⟨hx, w, place, hw, shape'⟩ := ready.at_image keys ht hu shape shown
      obtain ⟨upper, i, lower, q, rfl, found', quantifies, member⟩ := bound
      obtain ⟨q', above, -⟩ := Term.shown?_of_append shown
      rw [Term.at?_of_shown? above] at found'
      cases found'
      have own := apart.bound _ (Term.exposed_iff.mpr ⟨upper, above⟩) quantifies x member
      rw [ready.replaced_own hx symbol own] at shape'
      rw [place, ready.interned.eq_of_shape hw hx shape']
    · exact same
  free p x v shown found unbound := by
    have place := ready.at_key keys ht hu shape shown found
    refine ⟨place, fun p' y inside symbol open' bound => ?_⟩
    cases bound.split place with
    | inl bound =>
      refine apart.free p x v shown found unbound p' y inside symbol open' ?_
      exact (ready.boundAt_image keys ht hu shape binds apart.bound shown).mp bound
    | inr bound => exact open' bound

theorem Ready.captureFree_iff : CaptureFree m t u ↔ KeptApart m t := by
  refine ⟨fun free => ?_, ready.captureFree_of_keptApart keys ht hu shape binds⟩
  have spares := ready.spares_of_captureFree keys ht hu shape binds free
  refine ⟨spares, fun p x v shown found unbound p' y inside symbol open' bound => ?_, ?_⟩
  · obtain ⟨-, outside⟩ := free.free p x v shown found unbound
    refine outside p' y inside symbol open' ?_
    exact ((ready.boundAt_image keys ht hu shape binds spares shown).mpr bound).append
  · intro x v exposed found
    obtain ⟨p, shown⟩ := Term.exposed_iff.mp exposed
    exact free.binders.of_occursIn
      (Term.occursIn_of_at? (ready.at_key keys ht hu shape shown found))

end Binding

theorem Ready.eq_of_quantifies (ready : Ready m s) (ht : s.session.Has t)
    (flat : ∀ c ∈ t.children, c.isSymbol = true) (occurs : q.OccursIn t)
    (quantifies : q.Quantifies) : q = t := by
  obtain same | ⟨c, child, occurs⟩ := Term.occursIn_iff.mp occurs
  · exact same
  have hc := (ready.interned.children t ht c child).1
  have leaf : q = c := by
    simpa [ready.interned.leaf_of_symbol hc (flat c child)] using Term.occursIn_iff.mp occurs
  have kind := ready.application_of_quantifies (leaf ▸ hc) quantifies
  obtain ⟨name, symbol⟩ := Term.isSymbol_iff.mp (flat c child)
  cases kind.symm.trans (leaf ▸ symbol)

theorem Ready.bindsSymbols_of_flat (ready : Ready m s) (ht : s.session.Has t)
    (flat : ∀ c ∈ t.children, c.isSymbol = true) : t.BindsSymbols := by
  intro q occurs quantifies b member
  rw [ready.eq_of_quantifies ht flat occurs quantifies] at member
  exact flat b (List.dropLast_subset _ member)

theorem Ready.keptApart_single (ready : Ready (Std.HashMap.insert {} y x) s) (ht : s.session.Has t)
    (flat : ∀ c ∈ t.children, c.isSymbol = true) (hy : s.session.Has y)
    (hx : s.session.Has x) (symbol : x.isSymbol = true) (old : y ∉ t.binders)
    (new : x ∉ t.binders) :
    KeptApart (Std.HashMap.insert {} y x) t := by
  have interned := ready.interned
  have single : ∀ {k v : Term}, s.session.Has k →
    (Std.HashMap.insert {} y x : TermMap)[k]? = some v → k = y ∧ v = x := by
    intro k v hk found
    rw [Std.HashMap.getElem?_insert] at found
    split at found
    · rename_i same
      cases found
      exact ⟨(interned.identified y k hy hk (Term.beq_iff.mp same)).symm, rfl⟩
    · simp at found
  have leaf := interned.leaf_of_symbol hx symbol
  refine ⟨fun q exposed quantifies b member v found => ?_, ?_, fun k v exposed found => ?_⟩
  · rw [ready.eq_of_quantifies ht flat exposed.occursIn quantifies] at member
    have hb := (interned.children t ht b (List.dropLast_subset _ member)).1
    exact absurd ((single hb found).1 ▸ member) old
  · rintro p k v shown found - p' b inside - - ⟨upper, i, lower, q, -, place, quantifies, member⟩
    have hk := interned.has_of_occursIn ht (Term.exposed_iff.mpr ⟨p, shown⟩).occursIn
    rw [(single hk found).2] at inside
    have here : b = x := by
      simpa [leaf] using Term.occursIn_iff.mp (Term.occursIn_of_at? inside)
    rw [ready.eq_of_quantifies ht flat (Term.occursIn_of_at? place) quantifies, here] at member
    exact new member
  · have hk := interned.has_of_occursIn ht exposed.occursIn
    rw [(single hk found).2]
    exact ready.bindsSymbols_of_flat hx (by simp [leaf])

theorem run_quantified : ∃ (s : Solver Enumerator LogicSort Handle) (x y z t : Term),
    Run Enumerator.Fresh s [x, y, z, t] ∧
      (x.kind = .symbol "x" ∧ y.kind = .symbol "y" ∧ z.kind = .symbol "z") ∧
      (∀ a ∈ [x, y, z], s.session.Has a ∧ a.sort = .bool ∧ a.isSymbol = true) ∧
      s.session.Has t ∧ t.op = PrimOp.forAll ∧ t.children = [x, y] := by
  obtain ⟨s₂, x, y, scene₂, ⟨hx, sortX, kindX, -⟩, hy, sortY, kindY, -⟩ :=
    scene_symbols (Enumerator.fresh_new "m") (Enumerator.unused_new "m") {}
  obtain ⟨z, s₃, -, kept₃, hz, scene₃, -, sortZ, kindZ, -⟩ :=
    scene₂.symbol "z" .bool ⟨1, rfl⟩ (by simp [kindX, kindY])
  have hx₃ := kept₃.extension.has x hx
  have hy₃ := kept₃.extension.has y hy
  have derived : (PrimOp.forAll : Op).resultSort ([x, y].map Term.sort) = .ok (some .bool) := by
    rw [List.map_cons, List.map_cons, sortX, sortY]
    rfl
  have known : ∀ a ∈ [x, y], s₃.session.Has a := by simp [hx₃, hy₃]
  obtain ⟨t, s, -, kept, ht, scene, op, -, -, children⟩ := scene₃.application _ known derived
  refine ⟨s, x, y, z, t, scene.history.run, ⟨kindX, kindY, kindZ⟩, ?_, ht, op, children⟩
  have has := kept.extension.has
  have symbol : ∀ {a : Term} {name : String}, a.kind = .symbol name → a.isSymbol = true :=
    fun kind => Term.isSymbol_iff.mpr ⟨_, kind⟩
  simpa using ⟨⟨has x hx₃, sortX, symbol kindX⟩, ⟨has y hy₃, sortY, symbol kindY⟩,
    has z hz, sortZ, symbol kindZ⟩

/-- Substituting for symbols never fails, and replaces a key at every place that is not below a
constant array, whether it is bound there or free. That it replaces free keys only, keeps all
quantifiers to symbols and captures nothing is so just if the map has nothing to do with what the
term binds. -/
theorem substitution_under_quantifiers (run : Run Enumerator.Fresh s issued) (ht : s.session.Has t)
    (binds : t.BindsSymbols) (suits : s.Suits m) (keys : OnSymbols m) :
    ∃ u s', substitute t m s = .ok u s' ∧ s'.session.Has u ∧ u.shape = t.replaced m ∧
      (∀ p x v, t.shown? p = some x → m[x]? = some v → u.at? p = some v) ∧
        (CaptureFree m t u ↔ KeptApart m t) := by
  have ready : Ready m s := ⟨(run.coherent Enumerator.contract_honoured).1, suits⟩
  obtain ⟨u, s', done, kept, ⟨hu, shape⟩, -⟩ := ready.substitute ht
  have ready' := ready.after kept
  have ht' := kept.extension.has t ht
  exact ⟨u, s', done, hu, shape, fun p x v => ready'.at_key keys ht' hu shape,
    ready'.captureFree_iff keys ht' hu shape binds⟩

/-- Under a quantifier over one symbol another is replaced by a third, and nothing is captured. -/
theorem substitution_under_quantifiers_free :
    ∃ (s s' : Solver Enumerator LogicSort Handle) (x y z t u : Term),
      Run Enumerator.Fresh s [x, y, z, t] ∧
      (x.kind = .symbol "x" ∧ y.kind = .symbol "y" ∧ z.kind = .symbol "z") ∧
      (t.op = PrimOp.forAll ∧ t.children = [x, y]) ∧
      substitute t (Std.HashMap.insert {} y z) s = .ok u s' ∧
        u.at? [1] = some z ∧ CaptureFree (Std.HashMap.insert {} y z) t u := by
  obtain ⟨s, x, y, z, t, run, kinds, symbols, ht, op, children⟩ := run_quantified
  obtain ⟨⟨hx, sortX, symbolX⟩, ⟨hy, sortY, symbolY⟩, hz, sortZ, symbolZ⟩ := by simpa using symbols
  have suits := (suits_empty s).insert hy hz (sortY.trans sortZ.symm)
  have keys : OnSymbols (Std.HashMap.insert {} y z) :=
    onSymbols_insert (fun p hp => absurd hp (by simp)) symbolY
  have ready : Ready _ s := ⟨(run.coherent Enumerator.contract_honoured).1, suits⟩
  have flat : ∀ c ∈ t.children, c.isSymbol = true := by simp [children, symbolX, symbolY]
  have binders : t.binders = [x] := by rw [Term.binders, children]; rfl
  have other : ∀ {a : Term} {name : String}, a.kind = .symbol name →
      name ≠ "x" → a ∉ t.binders := by
    rintro a name kind other member
    rw [binders, List.mem_singleton] at member
    rw [member, kinds.1] at kind
    exact other (TermKind.symbol.inj kind).symm
  have apart := ready.keptApart_single ht flat hy hz symbolZ
    (other kinds.2.1 (by decide)) (other kinds.2.2 (by decide))
  obtain ⟨u, s', done, -, -, replaced, iff⟩ :=
    substitution_under_quantifiers run ht (ready.bindsSymbols_of_flat ht flat) suits keys
  have kind := ready.application_of_quantifies ht (.inl (by rw [op]))
  have shown : t.shown? [1] = some y :=
    Term.shown?_cons_iff.mpr ⟨by rw [Term.isValue, kind], y, by rw [children]; rfl, rfl⟩
  exact ⟨s, s', x, y, z, t, u, run, kinds, ⟨op, children⟩, done,
    replaced [1] y z shown Std.HashMap.getElem?_insert_self, iff.mpr apart⟩

/-- Substituting for a symbol that is bound changes what the quantifier binds. -/
theorem substitution_captures :
    ∃ (s : Solver Enumerator LogicSort Handle) (x y z t : Term),
      Run Enumerator.Fresh s [x, y, z, t] ∧
      (x.kind = .symbol "x" ∧ y.kind = .symbol "y") ∧ (t.op = PrimOp.forAll ∧ t.children = [x, y]) ∧
      s.session.Has t ∧ t.BindsSymbols ∧ s.Suits (Std.HashMap.insert {} x y) ∧
      OnSymbols (Std.HashMap.insert {} x y) ∧ ¬ ∃ u s',
        substitute t (Std.HashMap.insert {} x y) s = .ok u s' ∧
          CaptureFree (Std.HashMap.insert {} x y) t u := by
  obtain ⟨s, x, y, z, t, run, kinds, symbols, ht, op, children⟩ := run_quantified
  obtain ⟨⟨hx, sortX, symbolX⟩, ⟨hy, sortY, symbolY⟩, -⟩ := by simpa using symbols
  have suits := (suits_empty s).insert hx hy (sortX.trans sortY.symm)
  have keys : OnSymbols (Std.HashMap.insert {} x y) :=
    onSymbols_insert (fun p hp => absurd hp (by simp)) symbolX
  have ready : Ready _ s := ⟨(run.coherent Enumerator.contract_honoured).1, suits⟩
  have flat : ∀ c ∈ t.children, c.isSymbol = true := by simp [children, symbolX, symbolY]
  have binds := ready.bindsSymbols_of_flat ht flat
  refine ⟨s, x, y, z, t, run, ⟨kinds.1, kinds.2.1⟩, ⟨op, children⟩, ht, binds, suits, keys, ?_⟩
  rintro ⟨u, s', done, free⟩
  obtain ⟨u', s'', done', kept, ⟨hu, shape⟩, -⟩ := ready.substitute ht
  cases done'.symm.trans done
  have spares :=
    (ready.after kept).spares_of_captureFree keys (kept.extension.has t ht) hu shape binds free
  have bound : x ∈ t.binders := by
    rw [Term.binders, children]
    exact List.mem_cons_self
  have same : y = x := spares t .here (.inl (by rw [op])) x bound y Std.HashMap.getElem?_insert_self
  rw [same] at kinds
  exact absurd (kinds.1.symm.trans kinds.2.1) (by decide)

end FormulaGraph.Solver
