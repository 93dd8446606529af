import FormulaGraph.Proofs.Solver.Making
import FormulaGraph.Proofs.Solver.Replacement

/-!
Substitution is exact. On the enumerating engine a walker of a map never fails, and what it answers,
with whatever it has in its cache from before, is what replacing by recursion on the tree would
build.
-/

namespace FormulaGraph.Solver

open FormulaGraph.Action Rewriter

variable {s s' : Solver Enumerator LogicSort Handle} {m cache : TermMap} {t u : Term}
  {ts us : List Term} {issued : List Term} {w : Walker}

/-- What a walker of the map knows: the keys, which stay as they were put in, and nodes that are
just what replacing makes of the terms that they stand for. -/
structure Images (m cache : TermMap) (s : Solver Enumerator LogicSort Handle) : Prop where
  seeds : ∀ a v : Term, m[a]? = some v → cache[a]? = some v
  keyed : ∀ a : Term, cache.contains a = true → ∃ b, s.session.Has b ∧ b.id = a.id
  known : ∀ a u : Term, s.session.Has a → cache[a]? = some u →
    s.session.Has u ∧ u.shape = a.replaced m

theorem contains_of_getElem? (found : cache[t]? = some u) : cache.contains t = true := by
  rw [Std.HashMap.contains_eq_isSome_getElem?, found]
  rfl

theorem Images.of_map (ready : Ready m s) : Images m m s := by
  refine ⟨fun _ _ found => found, fun a known => ?_, fun a u ha found => ?_⟩
  · rw [Std.HashMap.contains_eq_isSome_getElem?, Option.isSome_iff_exists] at known
    obtain ⟨v, found⟩ := known
    obtain ⟨k, hk, same, _⟩ := ready.key found
    exact ⟨k, hk, same⟩
  · exact ⟨(ready.image ha found).1, (Term.replaced_key found).symm⟩

theorem Images.extend (images : Images m cache s) (interned : s'.session.Interned)
    (extension : s.session.Extends s'.session) : Images m cache s' := by
  refine ⟨images.seeds, fun a known => ?_, fun a u ha found => ?_⟩
  · obtain ⟨b, hb, same⟩ := images.keyed a known
    exact ⟨b, extension.has b hb, same⟩
  · obtain ⟨b, hb, same⟩ := images.keyed a (contains_of_getElem? found)
    have eq := interned.identified b a (extension.has b hb) ha same
    subst eq
    obtain ⟨hu, shape⟩ := images.known b u hb found
    exact ⟨extension.has u hu, shape⟩

theorem Images.insert (images : Images m cache s) (interned : s.session.Interned)
    (ht : s.session.Has t) (absent : m[t]? = none) (hu : s.session.Has u)
    (shape : u.shape = t.replaced m) : Images m (cache.insert t u) s := by
  refine ⟨fun a v found => ?_, fun a known => ?_, fun a v ha found => ?_⟩
  · have other : (t == a) = false := by
      cases same : t == a with
      | false => rfl
      | true =>
        rw [Std.HashMap.getElem?_congr same, found] at absent
        cases absent
    rw [Std.HashMap.getElem?_insert, other]
    exact images.seeds a v found
  · rw [Std.HashMap.contains_insert, Bool.or_eq_true] at known
    cases known with
    | inl same => exact ⟨t, ht, Term.beq_iff.mp same⟩
    | inr known => exact images.keyed a known
  · rw [Std.HashMap.getElem?_insert] at found
    split at found
    · rename_i same
      rw [← interned.identified t a ht ha (Term.beq_iff.mp same)]
      cases found
      exact ⟨hu, shape⟩
    · exact images.known a v ha found

theorem Images.resolve (images : Images m cache s) (known : ∀ t ∈ ts, s.session.Has t)
    (resolved : ∀ t ∈ ts, cache.contains t = true) :
    (∀ u ∈ ts.map fun t => cache.getD t t, s.session.Has u) ∧
      (ts.map fun t => cache.getD t t).map Term.shape = ts.map (Term.replaced m) := by
  have each : ∀ t ∈ ts, s.session.Has (cache.getD t t) ∧ (cache.getD t t).shape = t.replaced m := by
    intro t ht
    have found := resolved t ht
    rw [Std.HashMap.contains_eq_isSome_getElem?, Option.isSome_iff_exists] at found
    obtain ⟨u, found⟩ := found
    rw [Std.HashMap.getD_eq_getD_getElem?, found]
    exact images.known t u (known t ht) found
  refine ⟨fun u hu => ?_, ?_⟩
  · obtain ⟨t, ht, rfl⟩ := List.mem_map.mp hu
    exact (each t ht).1
  · rw [List.map_map]
    exact List.map_congr_left fun t ht => (each t ht).2

theorem beq_iff_ids : (us == ts) = true ↔ us.map Term.id = ts.map Term.id := by
  induction us generalizing ts with
  | nil => cases ts <;> simp
  | cons u us ih =>
    cases ts with
    | nil => simp
    | cons t ts => rw [List.cons_beq_cons, Bool.and_eq_true, Term.beq_iff, ih]; simp

/-- How a rewriting of these terms ends: it is completed, and nothing is built for terms in which
there is nothing to replace. -/
def Substituted (m : TermMap) (s : Solver Enumerator LogicSort Handle) (ts : List Term) :
    Unit → TermMap × Solver Enumerator LogicSort Handle → Prop := fun _ (cache, s') =>
  Kept Enumerator.contract s s' ∧ Images m cache s' ∧ ((∀ t ∈ ts, t.Untouched m) → s' = s)

theorem Ready.finish (ready : Ready m s) (images : Images m cache s) (ht : s.session.Has t)
    (absent : m[t]? = none) (known : ∀ u ∈ us, s.session.Has u)
    (shapes : us.map Term.shape = t.children.map (Term.replaced m)) :
    Succeeds (Rewriter.finish (.identity makeTerm) t us) (cache, s) (Substituted m s [t]) := by
  have children := fun c hc => (ready.interned.children t ht c hc).1
  have visited : (Rewriter.identity makeTerm).visit t us s = .ok .resume s := rfl
  rw [Rewriter.finish, Succeeds, bind_ok (perform_ok visited cache)]
  dsimp only
  by_cases stays : (us == t.children || t.isValue) = true
  · rw [if_pos stays]
    have shape : t.shape = t.replaced m := by
      cases value : t.isValue with
      | true => exact (Term.replaced_value absent value).symm
      | false =>
        rw [value, Bool.or_false] at stays
        have same := ready.interned.eq_of_ids known children (beq_iff_ids.mp stays)
        rw [same] at shapes
        exact (Term.replaced_of_children absent fun c hc =>
          (List.map_inj_left.mp shapes c hc).symm).symm
    exact ⟨(), _, rfl, ready.refl, images.insert ready.interned ht absent ht shape, fun _ => rfl⟩
  · rw [if_neg stays]
    rw [Bool.or_eq_true, not_or] at stays
    obtain ⟨changed, value⟩ := stays
    have leaf : t.children ≠ [] := by
      intro none
      rw [none, List.map_nil, List.map_eq_nil_iff] at shapes
      rw [none, shapes] at changed
      exact changed rfl
    have application := ready.application ht leaf (by simpa using value)
    obtain ⟨u, s', run, kept, hu, shape⟩ := ready.rebuild ht application absent known shapes
    have interned := (ready.after kept).interned
    have rebuilt : (Rewriter.identity makeTerm).rebuild t.op us s = .ok u s' := run
    rw [bind_ok (perform_ok rebuilt cache)]
    refine ⟨(), _, rfl, kept, ?_, fun untouched => ?_⟩
    · exact (images.extend interned kept.extension).insert interned (kept.extension.has t ht) absent
        hu shape
    · -- Children that are not replaced would be the same nodes.
      exfalso
      apply changed
      have same : us.map Term.shape = t.children.map Term.shape := by
        rw [shapes]
        refine List.map_congr_left fun c hc => Term.Untouched.replaced fun a ha => ?_
        exact untouched t List.mem_cons_self a (.inChild hc ha)
      rw [beq_iff_ids, ready.interned.eq_of_shapes known children same]

theorem rewriteAll_substitutes
    (each : ∀ t ∈ ts, ∀ cache s, Ready m s → Images m cache s → s.session.Has t →
      Succeeds (Rewriter.rewrite (.identity makeTerm) t) (cache, s) (Substituted m s [t]))
    (ready : Ready m s) (images : Images m cache s) (known : ∀ t ∈ ts, s.session.Has t) :
    Succeeds (Rewriter.rewriteAll (.identity makeTerm) ts) (cache, s) (Substituted m s ts) := by
  induction ts with
  | nil =>
    rw [Rewriter.rewriteAll]
    exact succeeds_pure ⟨ready.refl, images, fun _ => rfl⟩
  | cons t ts ih =>
    rw [Rewriter.rewriteAll]
    refine (ih (fun t ht => each t (List.mem_cons_of_mem _ ht))
      fun t ht => known t (List.mem_cons_of_mem _ ht)).bind ?_
    rintro _ ⟨cache₁, s₁⟩ ⟨kept₁, images₁, same₁⟩
    refine (each t List.mem_cons_self cache₁ s₁ (ready.after kept₁) images₁
      (kept₁.extension.has t (known t List.mem_cons_self))).mono ?_
    rintro _ ⟨cache₂, s₂⟩ ⟨kept₂, images₂, same₂⟩
    refine ⟨kept₁.trans Enumerator.contract_honoured kept₂, images₂, fun untouched => ?_⟩
    rw [same₂ fun u hu => List.mem_singleton.mp hu ▸ untouched t List.mem_cons_self]
    exact same₁ fun u hu => untouched u (List.mem_cons_of_mem _ hu)

theorem rewrite_substitutes (ready : Ready m s) (images : Images m cache s) (ht : s.session.Has t) :
    Succeeds (Rewriter.rewrite (.identity makeTerm) t) (cache, s) (Substituted m s [t]) := by
  induction t generalizing cache s with
  | node t ih =>
    cases known : cache.contains t with
    | true =>
      rw [Succeeds, rewrite_known known]
      exact ⟨(), _, rfl, ready.refl, images, fun _ => rfl⟩
    | false =>
      have absent : m[t]? = none := by
        cases found : m[t]? with
        | none => rfl
        | some v =>
          rw [contains_of_getElem? (images.seeds t v found)] at known
          cases known
      have children := fun c hc => (ready.interned.children t ht c hc).1
      have acyclic := (ready.interned.ordered ht).acyclic
      have progress := rewriteAll_progress (r := .identity makeTerm)
        (fun c hc => rewrite_progress (.identity makeTerm) (acyclic.child hc)) cache s
      obtain ⟨_, ⟨cache₁, s₁⟩, run, kept₁, images₁, same₁⟩ := rewriteAll_substitutes
        (fun c hc _ _ ready images => ih c hc ready images) ready images children
      rw [run] at progress
      obtain ⟨known₁, shapes⟩ := images₁.resolve (fun c hc => kept₁.extension.has c (children c hc))
        progress.2
      rw [Succeeds, rewrite_unknown known, bind_ok run, bind_ok (images_apply _ _ _)]
      refine ((ready.after kept₁).finish images₁ (kept₁.extension.has t ht) absent
        known₁ shapes).mono ?_
      rintro _ ⟨cache₂, s₂⟩ ⟨kept₂, images₂, same₂⟩
      refine ⟨kept₁.trans Enumerator.contract_honoured kept₂, images₂, fun untouched => ?_⟩
      rw [same₂ untouched]
      refine same₁ fun c hc a ha => ?_
      exact untouched t List.mem_cons_self a (.inChild hc ha)

/-- What a walker of the map has learnt so far. -/
structure Learnt (m : TermMap) (w : Walker) (s : Solver Enumerator LogicSort Handle) : Prop where
  images : Images m w.cache s
  lasting : w.clears = false

theorem Ready.walkWith (ready : Ready m s) (learnt : Learnt m w s) (ht : s.session.Has t) :
    Succeeds (Solver.walkWith (.identity makeTerm) w t) s fun (w', u) s' =>
      Kept Enumerator.contract s s' ∧ (s'.session.Has u ∧ u.shape = t.replaced m) ∧
        Learnt m w' s' ∧ (t.Untouched m → s' = s) := by
  have acyclic := (ready.interned.ordered ht).acyclic
  have progress := (Rewriter.identity makeTerm).rewrite_progress acyclic w.cache s
  obtain ⟨_, ⟨cache, s'⟩, run, kept, images, same⟩ := rewrite_substitutes ready learnt.images ht
  rw [run] at progress
  have found := progress.2
  rw [Std.HashMap.contains_eq_isSome_getElem?, Option.isSome_iff_exists] at found
  obtain ⟨u, found⟩ := found
  have visited : Walker.visit (.identity makeTerm) t (w, s) =
      .ok u ({ w with cache, aborted := false }, s') := by
    rw [Walker.visit_eq_recurse _ acyclic w rfl, Walker.recurse, learnt.lasting]
    simp only [Bool.false_eq_true, if_false, run, Std.HashMap.getD_eq_getD_getElem?, found,
      Option.getD_some]
  refine ⟨({ w with cache, aborted := false }, u), s', ?_, kept, ?_, ⟨images, learnt.lasting⟩, ?_⟩
  · rw [Solver.walkWith, visited]
  · exact images.known t u (kept.extension.has t ht) found
  · exact fun untouched => same fun a ha => List.mem_singleton.mp ha ▸ untouched

theorem Ready.substituteAll (ready : Ready m s) (learnt : Learnt m w s)
    (known : ∀ t ∈ ts, s.session.Has t) : ReplacesAll m ts (Solver.substituteAll w ts) s := by
  induction ts generalizing w s with
  | nil => exact succeeds_pure ⟨ready.refl, fun u hu => absurd hu List.not_mem_nil, rfl⟩
  | cons t ts ih =>
    rw [Solver.substituteAll]
    refine (ready.walkWith learnt (known t List.mem_cons_self)).bind ?_
    rintro ⟨w₁, u⟩ s₁ ⟨kept₁, ⟨hu, shape⟩, learnt₁, _⟩
    refine Succeeds.bind (ih (ready.after kept₁) learnt₁
      fun t ht => kept₁.extension.has t (known t (List.mem_cons_of_mem _ ht))) ?_
    rintro us s₂ ⟨kept₂, hus, shapes⟩
    refine succeeds_pure ⟨kept₁.trans Enumerator.contract_honoured kept₂, fun v hv => ?_, ?_⟩
    · cases List.mem_cons.mp hv with
      | inl same => exact same ▸ kept₂.extension.has u hu
      | inr hv => exact hus v hv
    · rw [List.map_cons, List.map_cons, shape, shapes]

theorem walker_of_sorted (sorted : ∀ p ∈ m.toList, p.1.sort = p.2.sort) :
    Substitution.walker m = .ok { cache := m } := by
  rw [Substitution.walker]
  split
  · rename_i key value found
    have differ := List.find?_some found
    have member := List.mem_of_find?_eq_some found
    exact absurd (sorted _ member) (by simpa using differ)
  · rfl

theorem walker_of_suits (suits : s.Suits m) : Substitution.walker m = .ok { cache := m } :=
  walker_of_sorted fun p hp => (suits p hp).2.2

theorem Ready.learnt (ready : Ready m s) : Learnt m { cache := m } s := ⟨.of_map ready, rfl⟩

theorem Ready.substituteTerms (ready : Ready m s) (known : ∀ t ∈ ts, s.session.Has t) :
    ReplacesAll m ts (Solver.substituteTerms ts m) s := by
  rw [Solver.substituteTerms, walker_of_suits ready.suits]
  exact ready.substituteAll ready.learnt known

theorem Ready.substitute (ready : Ready m s) (ht : s.session.Has t) :
    Succeeds (Solver.substitute t m) s fun u s' =>
      Kept Enumerator.contract s s' ∧ (s'.session.Has u ∧ u.shape = t.replaced m) ∧
        (t.Untouched m → s' = s) := by
  rw [Solver.substitute, walker_of_suits ready.suits]
  show Succeeds (Solver.walkWith (.identity makeTerm) { cache := m } t >>= _) s _
  refine (ready.walkWith ready.learnt ht).bind ?_
  rintro ⟨w', u⟩ s' ⟨kept, image, _, same⟩
  exact succeeds_pure ⟨kept, image, same⟩

/-- A walker of a map in use on a solver that was started on an engine without nodes: the walker
visits terms, and in between the solver advances in its session. -/
inductive Substituting (m : TermMap) :
    Walker → Solver Enumerator LogicSort Handle → List Term → Prop
  | new {w : Walker} {s : Solver Enumerator LogicSort Handle} {issued : List Term}
      (run : Run Enumerator.Fresh s issued) (suits : s.Suits m)
      (made : Substitution.walker m = .ok w) : Substituting m w s issued
  | visited {w w' : Walker} {s s' : Solver Enumerator LogicSort Handle} {issued : List Term}
      {t u : Term} (before : Substituting m w s issued) (known : s.session.Has t)
      (done : walkWith (.identity makeTerm) w t s = .ok (w', u) s') :
      Substituting m w' s' (issued ++ [u])
  | next {w : Walker} {s s' : Solver Enumerator LogicSort Handle} {issued issued' : List Term}
      (before : Substituting m w s issued) (step : Advance s issued s' issued')
      (lasts : s'.session.number = s.session.number) : Substituting m w s' issued'

theorem Substituting.ready (used : Substituting m w s issued) :
    Ready m s ∧ Learnt m w s ∧ ∀ u ∈ issued, s.session.Genuine u := by
  induction used with
  | new run suits made =>
    obtain ⟨coherent, genuine⟩ := run.coherent Enumerator.contract_honoured
    have ready : Ready m _ := ⟨coherent, suits⟩
    cases (walker_of_suits suits).symm.trans made
    exact ⟨ready, ready.learnt, genuine⟩
  | visited _ ht done ih =>
    obtain ⟨ready, learnt, genuine⟩ := ih
    obtain ⟨_, _, run, kept, ⟨hu, _⟩, learnt', _⟩ := ready.walkWith learnt ht
    cases run.symm.trans done
    refine ⟨ready.after kept, learnt', fun v hv => ?_⟩
    cases List.mem_append.mp hv with
    | inl hv => exact (genuine v hv).extend kept.extension
    | inr hv => exact List.mem_singleton.mp hv ▸ (ready.after kept).interned.genuine hu
  | next _ step lasts ih =>
    obtain ⟨ready, learnt, genuine⟩ := ih
    obtain ⟨coherent, genuine', extension⟩ :=
      step.coherent Enumerator.contract_honoured ready.coherent genuine
    have extension := extension lasts
    refine ⟨⟨coherent, ready.suits.extend extension⟩, ⟨?_, learnt.lasting⟩, genuine'⟩
    exact learnt.images.extend coherent.canonical.toInterned extension

/-- Substitution is exact and simultaneous, whatever the walker has visited before and whatever else
has happened in the session. A visit of a term answers the node that `replace` builds, so a key
becomes its value and no more, and a term whose children stay is answered itself; where no key
occurs, nothing is built. The same holds of any number of visits, and of substituting in terms one
by one or all together. -/
theorem substitution_exact (used : Substituting m w s issued) :
    (∀ t : Term, s.session.Has t → ∃ w' u s',
      walkWith (.identity makeTerm) w t s = .ok (w', u) s' ∧ s'.session.Has u ∧
        (replace m t).outcome s' = .ok u ∧
        (∃ v s'', replace m t s = .ok v s'' ∧ v.shape = u.shape) ∧
        (∀ v : Term, m[t]? = some v → u = v) ∧
        (m[t]? = none → (∀ c ∈ t.children, (replace m c).outcome s' = .ok c) → u = t) ∧
        (t.Untouched m → u = t ∧ s' = s)) ∧
    (∀ ts : List Term, (∀ t ∈ ts, s.session.Has t) → ∃ us s',
      substituteAll w ts s = .ok us s' ∧ (ts.mapM (replace m)).outcome s' = .ok us) ∧
    (∀ ts : List Term, (∀ t ∈ ts, s.session.Has t) → ∃ us s',
      substituteTerms ts m s = .ok us s' ∧ (ts.mapM (replace m)).outcome s' = .ok us ∧
        (ts.mapM fun t => substitute t m).outcome s' = .ok us ∧
        ∃ vs s'', (ts.mapM fun t => substitute t m) s = .ok vs s'' ∧
          vs.map Term.shape = us.map Term.shape) ∧
    ∀ t : Term, s.session.Has t → substitute t {} s = .ok t s := by
  obtain ⟨ready, learnt, -⟩ := used.ready
  have each : ∀ {ts : List Term}, ∀ t ∈ ts, ∀ s, Ready m s → s.session.Has t →
      Replaces m t (replace m t) s := fun t _ s ready ht => ready.replace ht
  have single : ∀ {ts : List Term}, ∀ t ∈ ts, ∀ s, Ready m s → s.session.Has t →
      Replaces m t (substitute t m) s := fun t _ s ready ht =>
    (ready.substitute ht).mono fun _ _ h => ⟨h.1, h.2.1⟩
  refine ⟨?_, ?_, ?_, ?_⟩
  · intro t ht
    obtain ⟨⟨w', u⟩, s', run, kept, ⟨hu, shape⟩, _, same⟩ := ready.walkWith learnt ht
    have ready' := ready.after kept
    have ht' := kept.extension.has t ht
    refine ⟨w', u, s', run, hu, (ready'.replace ht').outcome hu shape, ?_, ?_, ?_, ?_⟩
    · obtain ⟨v, s'', run', _, _, shape'⟩ := ready.replace ht
      exact ⟨v, s'', run', shape'.trans shape.symm⟩
    · intro v found
      apply ready'.interned.eq_of_shape hu (ready'.image ht' found).1
      rw [shape, Term.replaced_key found]
    · intro absent children
      apply ready'.interned.eq_of_shape hu ht'
      rw [shape, Term.replaced_of_children absent fun c hc => ?_]
      have replaces := ready'.replace (ready'.interned.children t ht' c hc).1
      exact (replaces.shape_of_outcome (children c hc)).symm
    · intro untouched
      exact ⟨ready'.interned.eq_of_shape hu ht' (shape.trans untouched.replaced), same untouched⟩
  · intro ts known
    obtain ⟨us, s', run, kept, hus, shapes⟩ := ready.substituteAll learnt known
    have known' := fun t ht => kept.extension.has t (known t ht)
    exact ⟨us, s', run, (mapM_replaces each (ready.after kept) known').outcome hus shapes⟩
  · intro ts known
    obtain ⟨us, s', run, kept, hus, shapes⟩ := ready.substituteTerms known
    have known' := fun t ht => kept.extension.has t (known t ht)
    refine ⟨us, s', run, (mapM_replaces each (ready.after kept) known').outcome hus shapes,
      (mapM_replaces single (ready.after kept) known').outcome hus shapes, ?_⟩
    obtain ⟨vs, s'', run', _, _, shapes'⟩ := mapM_replaces single ready known
    exact ⟨vs, s'', run', shapes'.trans shapes.symm⟩
  · intro t ht
    have nothing : Ready {} s := ⟨ready.coherent, suits_empty s⟩
    obtain ⟨u, s', run, kept, ⟨hu, shape⟩, same⟩ := nothing.substitute ht
    have untouched : t.Untouched {} := fun a _ => by simp
    obtain rfl := same untouched
    rw [run, nothing.interned.eq_of_shape hu ht (shape.trans untouched.replaced)]

/-- Swapping two symbols turns an implication around: neither replacement is replaced in turn. -/
theorem substitution_exact_swap :
    ∃ (s s' : Solver Enumerator LogicSort Handle) (x y t u : Term) (w : Walker) (m : TermMap),
      Substituting m { cache := m } s [x, y, t] ∧ m[x]? = some y ∧ m[y]? = some x ∧
        (x.kind = .symbol "x" ∧ y.kind = .symbol "y") ∧ t.op = PrimOp.implies ∧
        t.children = [x, y] ∧
        walkWith (.identity makeTerm) { cache := m } t s = .ok (w, u) s' ∧
        u.op = PrimOp.implies ∧ u.children = [y, x] ∧ (replace m t).outcome s' = .ok u := by
  obtain ⟨s₂, x, y, scene, ⟨hx, sortX, kindX, -⟩, hy, sortY, kindY, -⟩ :=
    scene_symbols (Enumerator.fresh_new "m") (Enumerator.unused_new "m") {}
  obtain ⟨t, s, -, kept, ht, scene, op, -, kind, children⟩ :=
    scene.application PrimOp.implies
      (List.forall_mem_cons.mpr ⟨hx, List.forall_mem_singleton.mpr hy⟩)
      (by rw [List.map, List.map_singleton, sortX, sortY]; rfl)
  replace hx := kept.extension.has x hx
  replace hy := kept.extension.has y hy
  have interned := scene.coherent.canonical.toInterned
  have apart : ∀ {a b : Term}, s.session.Has a → s.session.Has b →
      a.kind ≠ b.kind → (a == b) = false :=
    fun ha hb other => by
      rw [← Bool.not_eq_true, Term.beq_iff]
      exact fun same => other (congrArg Term.kind (interned.identified _ _ ha hb same))
  have sorts := sortX.trans sortY.symm
  have suits : s.Suits ((Std.HashMap.insert {} x y).insert y x) :=
    ((suits_empty s).insert hx hy sorts).insert hy hx sorts.symm
  have used := Substituting.new scene.history.run suits (walker_of_suits suits)
  obtain ⟨w, u, s', visited, hu, built, -⟩ := (substitution_exact used).1 t ht
  have foundX : ((Std.HashMap.insert {} x y : TermMap).insert y x)[x]? = some y := by
    rw [Std.HashMap.getElem?_insert, apart hy hx (by simp [kindX, kindY])]
    exact Std.HashMap.getElem?_insert_self
  have foundY : ((Std.HashMap.insert {} x y : TermMap).insert y x)[y]? = some x :=
    Std.HashMap.getElem?_insert_self
  have absent : ((Std.HashMap.insert {} x y : TermMap).insert y x)[t]? = none := by
    rw [Std.HashMap.getElem?_insert, Std.HashMap.getElem?_insert,
      apart hy ht (by simp [kindY, kind]), apart hx ht (by simp [kindX, kind])]
    exact Std.HashMap.getElem?_empty
  -- What comes out is of the shape of the other implication.
  obtain ⟨ready, learnt, -⟩ := used.ready
  obtain ⟨_, _, run, kept, ⟨-, shape⟩, -⟩ := ready.walkWith learnt ht
  cases run.symm.trans visited
  have value : t.isValue = false := by rw [Term.isValue, kind]
  rw [Term.replaced_node absent value, children, List.map, List.map_singleton,
    Term.replaced_key foundX, Term.replaced_key foundY, Term.shape_eq, Shape.mk.injEq] at shape
  have after := (ready.after kept).interned
  have turned : u.children = [y, x] :=
    after.eq_of_shapes (fun c hc => (after.children u hu c hc).1)
      (by simp [kept.extension.has x hx, kept.extension.has y hy]) shape.2.2.2
  exact ⟨s, s', x, y, t, u, w, _, used, foundX, foundY, ⟨kindX, kindY⟩, op, children, visited,
    shape.1.trans op, turned, built⟩

end FormulaGraph.Solver
