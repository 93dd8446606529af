import FormulaGraph.Proofs.Solver.Substitution
import FormulaGraph.Proofs.Solver.Transfer
import FormulaGraph.Proofs.Term.Symbols

/-!
Which symbols a term has after a substitution of symbols: those that it had and that are no keys,
those that it had below a constant array, which is never rebuilt, and those of whatever stands for a
key that occurs anywhere else.
-/

namespace FormulaGraph

namespace Session

variable {S T : Type} [BEq T] [Hashable T] {s : Session S T} {t x : Term}

theorem Interned.allIdentified (interned : s.Interned) : Term.Identified s.Has :=
  ⟨interned.identified, fun t ht c hc => (interned.children t ht c hc).1⟩

theorem Interned.mem_freeSymbols (interned : s.Interned) (ht : s.Has t) :
    x ∈ t.freeSymbols ↔ x.OccursIn t ∧ x.isSymbol = true :=
  (Term.freeSymbols_spec interned.allIdentified ht).2 x

theorem Interned.leaf_of_symbol (interned : s.Interned) (ht : s.Has t)
    (symbol : t.isSymbol = true) :
    t.children = [] := by
  have formed := interned.formed t ht
  obtain ⟨name, kind⟩ := Term.isSymbol_iff.mp symbol
  rw [Term.Formed, kind] at formed
  exact formed.2

end Session

namespace Solver

variable {s s' : Solver Enumerator LogicSort Handle} {m : TermMap} {t u x : Term}
    {issued : List Term}

/-- The keys of the map are symbols. -/
def OnSymbols (m : TermMap) : Prop := ∀ p ∈ m.toList, p.1.isSymbol = true

theorem OnSymbols.key {v : Term} (keys : OnSymbols m) (ready : Ready m s) (ht : s.session.Has t)
    (found : m[t]? = some v) : t.isSymbol = true := by
  obtain ⟨k, same, member⟩ := Std.HashMap.getElem?_eq_some_iff_exists_beq_and_mem_toList.mp found
  have eq := ready.interned.identified t k ht (ready.suits (k, v) member).1 (Term.beq_iff.mp same)
  exact eq ▸ keys (k, v) member

/-- The node is in the graph of the term after replacing: it was there and stays, or a replacement
that is made has it. -/
def Survives (m : TermMap) (x t : Term) : Prop :=
  (x.OccursIn t ∧ (m[x]? = none ∨ x.Sheltered t)) ∨
    ∃ k v : Term, k.Exposed t ∧ m[k]? = some v ∧ x.OccursIn v

theorem survives_of_node (absent : m[t]? = none) (node : t.isValue = false) (other : x ≠ t) :
    Survives m x t ↔ ∃ c ∈ t.children, Survives m x c := by
  constructor
  · rintro (⟨occurs, stays⟩ | ⟨k, v, exposed, found, occurs⟩)
    · obtain rfl | ⟨c, hc, below⟩ := Term.occursIn_iff.mp occurs
      · exact absurd rfl other
      · cases stays with
        | inl absent => exact ⟨c, hc, .inl ⟨below, .inl absent⟩⟩
        | inr sheltered =>
          obtain ⟨d, hd, sheltered⟩ := (Term.sheltered_of_node node).mp sheltered
          exact ⟨d, hd, .inl ⟨sheltered.occursIn, .inr sheltered⟩⟩
    · obtain rfl | ⟨c, hc, exposed⟩ := (Term.exposed_of_node node).mp exposed
      · rw [absent] at found
        cases found
      · exact ⟨c, hc, .inr ⟨k, v, exposed, found, occurs⟩⟩
  · rintro ⟨c, hc, ⟨occurs, stays⟩ | ⟨k, v, exposed, found, occurs⟩⟩
    · exact .inl ⟨.inChild hc occurs, stays.imp_right (Term.Sheltered.inChild hc)⟩
    · exact .inr ⟨k, v, .inChild node hc exposed, found, occurs⟩

theorem survives_of_closed (absent : m[t]? = none)
    (closed : t.children = [] ∨ t.kind = .constArray) :
    Survives m x t ↔ x.OccursIn t := by
  have exposed : ∀ k : Term, k.Exposed t → k = t := by
    intro k exposed
    cases closed with
    | inl leaf => simpa [leaf] using Term.occursIn_iff.mp exposed.occursIn
    | inr kind => exact (Term.exposed_of_value (by rw [Term.isValue, kind])).mp exposed
  constructor
  · rintro (⟨occurs, -⟩ | ⟨k, v, exposed', found, -⟩)
    · exact occurs
    · rw [exposed k exposed', absent] at found
      cases found
  · intro occurs
    cases closed with
    | inl leaf =>
      have same : x = t := by simpa [leaf] using Term.occursIn_iff.mp occurs
      exact .inl ⟨occurs, .inl (same ▸ absent)⟩
    | inr kind => exact .inl ⟨occurs, .inr ⟨t, .here, kind, occurs⟩⟩

theorem survives_of_key {v : Term} (found : m[t]? = some v) (leaf : t.children = [])
    (symbol : t.isSymbol = true) : Survives m x t ↔ x.OccursIn v := by
  have single : ∀ a : Term, a.OccursIn t → a = t := by
    intro a occurs
    simpa [leaf] using Term.occursIn_iff.mp occurs
  constructor
  · rintro (⟨occurs, absent | ⟨b, upper, kind, -⟩⟩ | ⟨k, w, exposed, found', occurs⟩)
    · rw [single x occurs, found] at absent
      cases absent
    · rw [single b upper] at kind
      obtain ⟨name, named⟩ := Term.isSymbol_iff.mp symbol
      cases kind.symm.trans named
    · rw [single k exposed.occursIn, found] at found'
      cases found'
      exact occurs
  · exact fun occurs => .inr ⟨t, v, .here, found, occurs⟩

/-- The symbols of what replacing makes of a term. -/
theorem Ready.occursIn_replaced (ready : Ready m s) (keys : OnSymbols m) (ht : s.session.Has t)
    (hu : s.session.Has u) (shape : u.shape = t.replaced m) (symbol : x.isSymbol = true) :
    x.OccursIn u ↔ Survives m x t := by
  have interned := ready.interned
  induction t generalizing u with
  | node t ih =>
    cases found : m[t]? with
    | some v =>
      have key := keys.key ready ht found
      have same : u = v := interned.eq_of_shape hu (ready.image ht found).1
        (shape.trans (Term.replaced_key found))
      rw [survives_of_key found (interned.leaf_of_symbol ht key) key, same]
    | none =>
      have stays : t.replaced m = t.shape → t.children = [] ∨ t.kind = .constArray →
          (x.OccursIn u ↔ Survives m x t) := by
        intro same closed
        rw [survives_of_closed found closed, interned.eq_of_shape hu ht (shape.trans same)]
      have formed := interned.formed t ht
      cases kind : t.kind with
      | symbol name | value l =>
        rw [Term.Formed, kind] at formed
        refine stays (Term.replaced_of_children found fun c hc => ?_) (.inl formed.2)
        rw [formed.2] at hc
        cases hc
      | constArray =>
        exact stays (Term.replaced_value found (by rw [Term.isValue, kind])) (.inr kind)
      | application =>
        have node : t.isValue = false := by rw [Term.isValue, kind]
        rw [Term.replaced_node found node, Term.shape_eq, Shape.mk.injEq] at shape
        obtain ⟨-, -, kind', shapes⟩ := shape
        have other : ∀ a : Term, a.kind = .application → x ≠ a := by
          rintro a kind rfl
          obtain ⟨name, named⟩ := Term.isSymbol_iff.mp symbol
          cases kind.symm.trans named
        have mates : List.Forall₂ (fun d c => d.shape = c.replaced m) u.children t.children := by
          rwa [← List.forall₂_eq_eq_eq, List.forall₂_map_left_iff,
            List.forall₂_map_right_iff] at shapes
        have child : ∀ d ∈ u.children, ∀ c ∈ t.children, d.shape = c.replaced m →
            (x.OccursIn d ↔ Survives m x c) := fun d hd c hc shape =>
          ih c hc (interned.children t ht c hc).1 (interned.children u hu d hd).1 shape
        rw [survives_of_node found node (other t kind), Term.occursIn_iff]
        constructor
        · rintro (same | ⟨d, hd, occurs⟩)
          · exact absurd same (other u (kind'.trans kind))
          · obtain ⟨c, hc, shape⟩ := exists_of_forall₂ mates.flip hd
            exact ⟨c, hc, (child d hd c hc shape).mp occurs⟩
        · rintro ⟨c, hc, survives⟩
          obtain ⟨d, hd, shape⟩ := exists_of_forall₂ mates hc
          exact .inr ⟨d, hd, (child d hd c hc shape).mpr survives⟩

theorem onSymbols_insert {v : Term} (keys : OnSymbols m) (symbol : t.isSymbol = true) :
    OnSymbols (m.insert t v) := by
  intro p hp
  cases List.mem_cons.mp (Std.HashMap.toList_insert_perm.mem_iff.mp hp) with
  | inl same => exact same ▸ symbol
  | inr hp => exact keys p (List.mem_filter.mp hp).1

theorem run_symbols_constArray : ∃ (s : Solver Enumerator LogicSort Handle) (x y a : Term),
    Run Enumerator.Fresh s [x, y, a] ∧
      (s.session.Has x ∧ x.sort = .bool ∧ x.kind = .symbol "x" ∧ x.children = []) ∧
      (s.session.Has y ∧ y.sort = .bool ∧ y.kind = .symbol "y" ∧ y.children = []) ∧
      s.session.Has a ∧ a.kind = .constArray ∧ a.children = [x] := by
  obtain ⟨s₂, x, y, scene, ⟨hx, sort, x_made⟩, hy, y_made⟩ :=
    scene_symbols (Enumerator.fresh_new "m") (Enumerator.unused_new "m") {}
  obtain ⟨a, s, -, kept, ha, scene, -, -, kind, children⟩ :=
    scene.constArray (.bitVec 1) hx ⟨2, by rw [sort]; rfl⟩
  exact ⟨s, x, y, a, scene.history.run, ⟨kept.extension.has x hx, sort, x_made⟩,
    ⟨kept.extension.has y hy, y_made⟩, ha, kind, children⟩

theorem run_replacing : ∃ (s : Solver Enumerator LogicSort Handle) (x y a : Term),
    Run Enumerator.Fresh s [x, y, a] ∧
      (x.kind = .symbol "x" ∧ y.kind = .symbol "y" ∧ a.kind = .constArray) ∧
      (s.session.Has x ∧ s.session.Has a ∧ a.children = [x]) ∧
      (s.Suits (Std.HashMap.insert {} x y) ∧ OnSymbols (Std.HashMap.insert {} x y)) ∧
      y ≠ x ∧ (∀ z, z ∈ x.freeSymbols ↔ z = x) ∧ (∀ z, z ∈ y.freeSymbols ↔ z = y) ∧
        ∀ z, z ∈ a.freeSymbols ↔ z = x := by
  obtain ⟨s, x, y, a, run, ⟨hx, sort, kind, leaf⟩, ⟨hy, sort', kind', leaf'⟩,
      ha, kindA, children⟩ :=
    run_symbols_constArray
  have interned := (run.coherent Enumerator.contract_honoured).1.canonical.toInterned
  have symbol : x.isSymbol = true := Term.isSymbol_iff.mpr ⟨_, kind⟩
  have symbol' : y.isSymbol = true := Term.isSymbol_iff.mpr ⟨_, kind'⟩
  have suits := (suits_empty s).insert hx hy (sort.trans sort'.symm)
  have keys : OnSymbols (Std.HashMap.insert {} x y) :=
    onSymbols_insert (fun p hp => absurd hp (by simp)) symbol
  refine ⟨s, x, y, a, run, ⟨kind, kind', kindA⟩, ⟨hx, ha, children⟩, ⟨suits, keys⟩, ?_, ?_, ?_, ?_⟩
  · rintro rfl
    rw [kind] at kind'
    exact absurd kind' (by decide)
  · intro z
    rw [interned.mem_freeSymbols hx, Term.occursIn_iff, leaf]
    simp +contextual [symbol]
  · intro z
    rw [interned.mem_freeSymbols hy, Term.occursIn_iff, leaf']
    simp +contextual [symbol']
  · intro z
    have array : a.isSymbol = false := by rw [Term.isSymbol, Term.symbolName?, kindA]; rfl
    rw [interned.mem_freeSymbols ha, Term.occursIn_iff, children]
    simp only [List.mem_singleton, exists_eq_left, Term.occursIn_iff (t := x), leaf]
    constructor
    · rintro ⟨rfl | same, symbol⟩
      · rw [array] at symbol
        cases symbol
      · simpa using same
    · rintro rfl
      exact ⟨.inr (.inl rfl), symbol⟩

/-- Substituting for symbols never fails. A symbol of the result is one that the term had and that
is no key or is sheltered by a constant array, or it is one of what stands for a key that is exposed
in the term. -/
theorem substitution_symbols (run : Run Enumerator.Fresh s issued) (ht : s.session.Has t)
    (suits : s.Suits m) (keys : OnSymbols m) :
    ∃ u s', substitute t m s = .ok u s' ∧ u.freeSymbols.Nodup ∧ ∀ x, x ∈ u.freeSymbols ↔
      (x ∈ t.freeSymbols ∧ (m[x]? = none ∨ x.Sheltered t)) ∨
        ∃ k v : Term, k ∈ t.freeSymbols ∧ k.Exposed t ∧ m[k]? = some v ∧ x ∈ v.freeSymbols := by
  have ready : Ready m s := ⟨(run.coherent Enumerator.contract_honoured).1, suits⟩
  obtain ⟨u, s', done, kept, ⟨hu, shape⟩, -⟩ := ready.substitute ht
  have ready' := ready.after kept
  have interned := ready'.interned
  have ht' := kept.extension.has t ht
  refine ⟨u, s', done, (Term.freeSymbols_spec interned.allIdentified hu).1, fun x => ?_⟩
  rw [interned.mem_freeSymbols hu, interned.mem_freeSymbols ht']
  constructor
  · rintro ⟨occurs, symbol⟩
    obtain ⟨occurs, stays⟩ | ⟨k, v, exposed, found, occurs⟩ :=
      (ready'.occursIn_replaced keys ht' hu shape symbol).mp occurs
    · exact .inl ⟨⟨occurs, symbol⟩, stays⟩
    · have hk := interned.has_of_occursIn ht' exposed.occursIn
      refine .inr ⟨k, v, ?_, exposed, found, ?_⟩
      · exact (interned.mem_freeSymbols ht').mpr ⟨exposed.occursIn, keys.key ready' hk found⟩
      · exact (interned.mem_freeSymbols (ready'.image hk found).1).mpr ⟨occurs, symbol⟩
  · rintro (⟨⟨occurs, symbol⟩, stays⟩ | ⟨k, v, -, exposed, found, member⟩)
    · exact ⟨(ready'.occursIn_replaced keys ht' hu shape symbol).mpr (.inl ⟨occurs, stays⟩), symbol⟩
    · have hk := interned.has_of_occursIn ht' exposed.occursIn
      obtain ⟨occurs, symbol⟩ := (interned.mem_freeSymbols (ready'.image hk found).1).mp member
      exact ⟨(ready'.occursIn_replaced keys ht' hu shape symbol).mpr
        (.inr ⟨k, v, exposed, found, occurs⟩), symbol⟩

/-- One symbol is replaced by another in itself, and stays in an array that holds it everywhere. -/
theorem substitution_symbols_single :
    ∃ (s s' s'' : Solver Enumerator LogicSort Handle) (x y a u v : Term),
      Run Enumerator.Fresh s [x, y, a] ∧
        (x.kind = .symbol "x" ∧ y.kind = .symbol "y" ∧ a.kind = .constArray) ∧
        (substitute x (Std.HashMap.insert {} x y) s = .ok u s' ∧ y ∈ u.freeSymbols) ∧
        substitute a (Std.HashMap.insert {} x y) s = .ok v s'' ∧ x ∈ v.freeSymbols := by
  obtain ⟨s, x, y, a, run, kinds, ⟨hx, ha, children⟩, ⟨suits, keys⟩, -, ofX, ofY, ofA⟩ :=
    run_replacing
  have found : (Std.HashMap.insert {} x y : TermMap)[x]? = some y :=
    Std.HashMap.getElem?_insert_self
  have sheltered : x.Sheltered a := by
    refine ⟨a, .here, kinds.2.2, .inChild ?_ .here⟩
    rw [children]
    exact List.mem_cons_self
  obtain ⟨u, s', done, -, symbols⟩ := substitution_symbols run hx suits keys
  obtain ⟨v, s'', done', -, symbols'⟩ := substitution_symbols run ha suits keys
  refine ⟨s, s', s'', x, y, a, u, v, run, kinds, ⟨done, ?_⟩, done', ?_⟩
  · exact (symbols y).mpr (.inr ⟨x, y, (ofX x).mpr rfl, .here, found, (ofY y).mpr rfl⟩)
  · exact (symbols' x).mpr (.inl ⟨(ofA x).mpr rfl, .inr sheltered⟩)

/-- Not every occurrence is reached: where an array holds a symbol everywhere, the symbol stays,
although it is a key. -/
theorem substitution_misses_sheltered :
    ∃ (s : Solver Enumerator LogicSort Handle) (x y a : Term),
      Run Enumerator.Fresh s [x, y, a] ∧
        (x.kind = .symbol "x" ∧ y.kind = .symbol "y" ∧ a.kind = .constArray) ∧ s.session.Has a ∧
        s.Suits (Std.HashMap.insert {} x y) ∧ OnSymbols (Std.HashMap.insert {} x y) ∧
        ¬ ∃ u s', substitute a (Std.HashMap.insert {} x y) s = .ok u s' ∧ ∀ z, z ∈ u.freeSymbols ↔
          (z ∈ a.freeSymbols ∧ (Std.HashMap.insert {} x y : TermMap)[z]? = none) ∨
            ∃ k v : Term, k ∈ a.freeSymbols ∧ (Std.HashMap.insert {} x y : TermMap)[k]? = some v ∧
              z ∈ v.freeSymbols := by
  obtain ⟨s, x, y, a, run, kinds, ⟨-, ha, -⟩, ⟨suits, keys⟩, other, -, ofY, ofA⟩ := run_replacing
  refine ⟨s, x, y, a, run, kinds, ha, suits, keys, ?_⟩
  rintro ⟨u, s', done, symbols⟩
  have ready : Ready _ s := ⟨(run.coherent Enumerator.contract_honoured).1, suits⟩
  have found : (Std.HashMap.insert {} x y : TermMap)[x]? = some y :=
    Std.HashMap.getElem?_insert_self
  have absent : (Std.HashMap.insert {} x y : TermMap)[a]? = none := by
    by_contra present
    obtain ⟨v, found⟩ := Option.ne_none_iff_exists'.mp present
    have symbol := keys.key ready ha found
    rw [Term.isSymbol, Term.symbolName?, kinds.2.2] at symbol
    cases symbol
  obtain ⟨u', s'', done', kept, ⟨hu, shape⟩, -⟩ := ready.substitute ha
  cases done'.symm.trans done
  have value : a.isValue = true := by rw [Term.isValue, kinds.2.2]
  have same : u = a := kept.coherent.canonical.toInterned.eq_of_shape hu (kept.extension.has a ha)
    (shape.trans (Term.replaced_value absent value))
  have replaced : y ∈ u.freeSymbols :=
    (symbols y).mpr (.inr ⟨x, y, (ofA x).mpr rfl, found, (ofY y).mpr rfl⟩)
  rw [same] at replaced
  exact other ((ofA y).mp replaced)

end Solver

end FormulaGraph
