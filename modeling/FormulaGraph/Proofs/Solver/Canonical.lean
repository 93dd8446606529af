import FormulaGraph.Proofs.SortArbiter
import FormulaGraph.Proofs.Term.Shape
import FormulaGraph.Solver

/-!
What a session keeps true of its terms: the table has one term for each structure, children come
before their parents and are in the table too, and what the session knows by engine term, by name or
as an assumption is in the table. Two terms of the table with one shape are one term.
-/

namespace FormulaGraph

/-- A node has the operator, the sort and the children that its kind asks for. -/
def Term.Formed (t : Term) : Prop :=
  match t.kind with
  | .symbol _ | .value _ => t.op = .null ∧ t.children = []
  | .constArray =>
    t.op = .null ∧ ∃ fill index, t.children = [fill] ∧ t.sort = .array index fill.sort
  | .application => t.op.Gives (t.children.map Term.sort) t.sort

theorem Term.Formed.application {t : Term} (formed : t.Formed) (operator : t.op ≠ .null) :
    t.kind = .application := by
  unfold Term.Formed at formed
  cases kind : t.kind with
  | application => rfl
  | symbol | value | constArray =>
    rw [kind] at formed
    exact absurd formed.1 operator

namespace Session

variable {S T : Type} [BEq T] [Hashable T] {s s' s'' : Session S T} {t u : Term}

/-- The term is a canonical term of the session. -/
def Has (s : Session S T) (t : Term) : Prop := s.table.find? t = some t

/-- What the graph of the term has of this session is canonical there. Whatever is made outside has
another session's number. -/
def Genuine (s : Session S T) (t : Term) : Prop :=
  ∀ a : Term, a.OccursIn t → a.session = s.number → s.Has a

/-- The part of the invariant that is about the table and the engine's terms. -/
structure Interned (s : Session S T) : Prop where
  keyed : ∀ (key : TermKey) (t : Term), s.table.entries[key]? = some t → t.key = key
  numbered : ∀ t : Term, s.Has t → t.session = s.number
  supplied : ∀ t : Term, s.Has t → t.id < s.supply.nextTerm
  identified : ∀ t u : Term, s.Has t → s.Has u → t.id = u.id → t = u
  children : ∀ t : Term, s.Has t → ∀ c ∈ t.children, s.Has c ∧ c.id < t.id
  formed : ∀ t : Term, s.Has t → t.Formed
  natives : ∀ t : Term, s.natives.contains t = true ↔ ∃ u : Term, s.Has u ∧ u.id = t.id

structure Canonical (s : Session S T) : Prop extends Interned s where
  symbols : ∀ (name : String) (t : Term), s.symbols[name]? = some t ↔ s.Has t ∧
    t.kind = .symbol name
  assumptions : ∀ (n : T) (t : Term), s.assumptions[n]? = some t → s.Has t
  current : s.number < s.supply.nextSession
  memo : s.arbiter.Faithful

/-- What a session keeps as long as it lasts. -/
structure Extends (s s' : Session S T) : Prop where
  number : s'.number = s.number
  has : ∀ t, s.Has t → s'.Has t
  natives : ∀ (t : Term) (n : T), s.natives[t]? = some n → s'.natives[t]? = some n
  symbols : ∀ (name : String) (t : Term), s.symbols[name]? = some t → s'.symbols[name]? = some t
  aliasing : s'.arbiter.aliasing = s.arbiter.aliasing

theorem Extends.refl (s : Session S T) : Extends s s :=
  ⟨rfl, fun _ h => h, fun _ _ h => h, fun _ _ h => h, rfl⟩

theorem Extends.trans (first : Extends s s') (second : Extends s' s'') : Extends s s'' where
  number := second.number.trans first.number
  has t h := second.has t (first.has t h)
  natives t n h := second.natives t n (first.natives t n h)
  symbols name t h := second.symbols name t (first.symbols name t h)
  aliasing := second.aliasing.trans first.aliasing

theorem Interned.congr (interned : s.Interned) (number : s'.number = s.number)
    (table : s'.table = s.table) (natives : s'.natives = s.natives)
    (supply : s.supply.nextTerm ≤ s'.supply.nextTerm) : s'.Interned := by
  have has : ∀ t, s'.Has t ↔ s.Has t := fun t => by rw [Has, Has, table]
  refine ⟨?_, ?_, ?_, ?_, ?_, ?_, ?_⟩
  · rw [table]
    exact interned.keyed
  · intro t ht
    rw [number]
    exact interned.numbered t ((has t).mp ht)
  · intro t ht
    exact Nat.lt_of_lt_of_le (interned.supplied t ((has t).mp ht)) supply
  · intro t u ht hu
    exact interned.identified t u ((has t).mp ht) ((has u).mp hu)
  · intro t ht c hc
    rw [has]
    exact interned.children t ((has t).mp ht) c hc
  · intro t ht
    exact interned.formed t ((has t).mp ht)
  · intro t
    simp only [has, natives]
    exact interned.natives t

theorem Canonical.congr (canonical : s.Canonical) (number : s'.number = s.number)
    (table : s'.table = s.table) (natives : s'.natives = s.natives)
    (symbols : s'.symbols = s.symbols) (assumptions : s'.assumptions = s.assumptions)
    (nextTerm : s.supply.nextTerm ≤ s'.supply.nextTerm)
    (nextSession : s.supply.nextSession ≤ s'.supply.nextSession) (memo : s'.arbiter.Faithful) :
    s'.Canonical := by
  have has : ∀ t, s'.Has t ↔ s.Has t := fun t => by rw [Has, Has, table]
  refine ⟨canonical.toInterned.congr number table natives nextTerm, ?_, ?_, ?_, memo⟩
  · intro name t
    rw [symbols, has]
    exact canonical.symbols name t
  · intro n t found
    rw [assumptions] at found
    exact (has t).mpr (canonical.assumptions n t found)
  · rw [number]
    exact Nat.lt_of_lt_of_le canonical.current nextSession

theorem not_has_of_empty (table : s.table = {}) (t : Term) : ¬ s.Has t := by
  intro ht
  simp [Has, TermTable.find?, table] at ht

theorem Interned.of_empty (table : s.table = {}) (natives : s.natives = {}) : s.Interned := by
  have nothing := not_has_of_empty table
  refine ⟨?_, ?_, ?_, ?_, ?_, ?_, ?_⟩
  · intro key t found
    simp [table] at found
  · exact fun t ht => absurd ht (nothing t)
  · exact fun t ht => absurd ht (nothing t)
  · exact fun t _ ht => absurd ht (nothing t)
  · exact fun t ht => absurd ht (nothing t)
  · exact fun t ht => absurd ht (nothing t)
  · intro t
    simp [natives, nothing]

theorem Canonical.of_empty (table : s.table = {}) (natives : s.natives = {})
    (symbols : s.symbols = {}) (assumptions : s.assumptions = {})
    (current : s.number < s.supply.nextSession) (memo : s.arbiter.Faithful) : s.Canonical := by
  refine ⟨.of_empty table natives, ?_, ?_, current, memo⟩
  · intro name t
    simp [symbols, not_has_of_empty table]
  · intro n t found
    simp [assumptions] at found

theorem Extends.congr (number : s'.number = s.number) (table : s'.table = s.table)
    (natives : s'.natives = s.natives) (symbols : s'.symbols = s.symbols)
    (aliasing : s'.arbiter.aliasing = s.arbiter.aliasing) : Extends s s' where
  number := number
  has t ht := by rw [Has, table]; exact ht
  natives t n found := by rw [natives]; exact found
  symbols name t found := by rw [symbols]; exact found
  aliasing := aliasing

theorem Genuine.extend (genuine : s.Genuine t) (extension : Extends s s') : s'.Genuine t :=
  fun a ha number => extension.has a (genuine a ha (number.trans extension.number))

theorem Genuine.of_occursIn (genuine : s.Genuine t) (occurs : u.OccursIn t) : s.Genuine u :=
  fun a ha => genuine a (ha.trans occurs)

theorem Genuine.has (genuine : s.Genuine t) (number : t.session = s.number) : s.Has t :=
  genuine t .here number

theorem native_ok {n : T} (h : s.native t = .ok n) :
    t.session = s.number ∧ s.natives[t]? = some n := by
  unfold native at h
  split at h
  · cases h
  · rename_i number
    split at h
    · rename_i found
      cases h
      exact ⟨Decidable.not_not.mp number, found⟩
    · cases h

theorem native_of_has {n : T} (number : t.session = s.number) (found : s.natives[t]? = some n) :
    s.native t = .ok n := by
  rw [native, if_neg (not_not_intro number), found]

theorem contains_of_native {n : T} (found : s.natives[t]? = some n) :
    s.natives.contains t = true := by
  rw [Std.HashMap.contains_eq_isSome_getElem?, found]
  rfl

theorem Has.eq_of_key (ht : s.Has t) (hu : s.Has u) (same : t.key = u.key) : t = u := by
  rw [Has, TermTable.find?, same] at ht
  exact Option.some.inj (ht.symm.trans hu)

namespace Interned

theorem has_of_find? (interned : s.Interned) (found : s.table.find? u = some t) :
    s.Has t ∧ t.key = u.key := by
  have same := interned.keyed u.key t found
  refine ⟨?_, same⟩
  rw [Has, TermTable.find?, same]
  exact found

theorem has_of_occursIn (interned : s.Interned) (ht : s.Has t) (occurs : u.OccursIn t) :
    s.Has u := by
  induction occurs with
  | here => exact ht
  | inChild child _ ih => exact ih (interned.children _ ht _ child).1

theorem genuine (interned : s.Interned) (ht : s.Has t) : s.Genuine t :=
  fun _ occurs _ => interned.has_of_occursIn ht occurs

theorem ordered (interned : s.Interned) (ht : s.Has t) : t.Ordered :=
  fun _ occurs c hc =>
    (interned.children _ (interned.has_of_occursIn ht occurs) c hc).2

/-- Terms of the table with one shape are one term: their children are, by induction, so they have
one key. -/
theorem eq_of_shape (interned : s.Interned) (ht : s.Has t) (hu : s.Has u)
    (same : t.shape = u.shape) : t = u := by
  induction t generalizing u with
  | node t ih =>
    obtain ⟨op, sort, kind, shapes⟩ := Term.shape_eq_iff.mp same
    have children : t.children = u.children := by
      apply List.ext_getElem
      · simpa using congrArg List.length shapes
      · intro i hi hi'
        have member := List.getElem_mem hi
        have member' := List.getElem_mem hi'
        refine ih _ member (interned.children t ht _ member).1
          (interned.children u hu _ member').1 ?_
        have pointwise := List.getElem_of_eq shapes (i := i) (by simpa using hi)
        simpa using pointwise
    apply ht.eq_of_key hu
    rw [Term.key, Term.key, op, sort, kind, children]

theorem eq_of_map_eq {α : Type} {f : Term → α}
    (single : ∀ t u, s.Has t → s.Has u → f t = f u → t = u)
    {ts us : List Term} (hts : ∀ t ∈ ts, s.Has t) (hus : ∀ u ∈ us, s.Has u)
    (same : ts.map f = us.map f) : ts = us := by
  induction ts generalizing us with
  | nil => exact (List.map_eq_nil_iff.mp same.symm).symm
  | cons t ts ih =>
    cases us with
    | nil => cases same
    | cons u us =>
      rw [List.map_cons, List.map_cons, List.cons.injEq] at same
      rw [single t u (hts t List.mem_cons_self) (hus u List.mem_cons_self) same.1,
        ih (fun t ht => hts t (List.mem_cons_of_mem _ ht))
          (fun u hu => hus u (List.mem_cons_of_mem _ hu)) same.2]

theorem eq_of_shapes (interned : s.Interned) {ts us : List Term} (hts : ∀ t ∈ ts, s.Has t)
    (hus : ∀ u ∈ us, s.Has u) (same : ts.map Term.shape = us.map Term.shape) : ts = us :=
  eq_of_map_eq (fun _ _ => interned.eq_of_shape) hts hus same

theorem eq_of_ids (interned : s.Interned) {ts us : List Term} (hts : ∀ t ∈ ts, s.Has t)
    (hus : ∀ u ∈ us, s.Has u) (same : ts.map Term.id = us.map Term.id) : ts = us :=
  eq_of_map_eq interned.identified hts hus same

end Interned

/-- The session with an identifier used up. -/
def tick (s : Session S T) : Session S T :=
  { s with supply := { s.supply with nextTerm := s.supply.nextTerm + 1 } }

/-- The term that an interning makes canonical if there is none of its structure. -/
def candidate (s : Session S T) (op : Op) (sort : LogicSort) (kind : TermKind)
    (children : List Term) : Term :=
  ⟨s.supply.nextTerm, s.number, op, sort, kind, children⟩

/-- The session with a new canonical term. -/
def add (s : Session S T) (t : Term) (native : T) : Session S T :=
  { s.tick with table := (s.table.insert t).2, natives := s.natives.insert t native }

theorem intern_hit {op : Op} {sort : LogicSort} {kind : TermKind} {children : List Term}
    (ht : s.Has t) (same : t.key = (s.candidate op sort kind children).key) (native : T) :
    s.intern op sort kind children native = (t, s.tick) := by
  rw [Has, TermTable.find?, same] at ht
  rw [intern]
  simp only [TermTable.find?]
  rw [candidate] at ht
  rw [ht]
  rfl

theorem intern_miss {op : Op} {sort : LogicSort} {kind : TermKind} {children : List Term}
    (fresh : s.table.find? (s.candidate op sort kind children) = none) (native : T) :
    s.intern op sort kind children native =
      (s.candidate op sort kind children, s.add (s.candidate op sort kind children) native) := by
  rw [candidate] at fresh ⊢
  rw [intern]
  simp only [fresh]
  rfl

/-- An interning is about the table and the engine's terms only. -/
theorem symbols_intern (s : Session S T) (op : Op) (sort : LogicSort) (kind : TermKind)
    (children : List Term) (native : T) :
    (s.intern op sort kind children native).2.symbols = s.symbols := by
  unfold intern
  dsimp only
  split <;> rfl

theorem sorts_intern (s : Session S T) (op : Op) (sort : LogicSort) (kind : TermKind)
    (children : List Term) (native : T) :
    (s.intern op sort kind children native).2.sorts = s.sorts := by
  unfold intern
  dsimp only
  split <;> rfl

theorem declared_intern (s : Session S T) (op : Op) (sort : LogicSort) (kind : TermKind)
    (children : List Term) (native : T) :
    (s.intern op sort kind children native).2.declared = s.declared := by
  unfold intern
  dsimp only
  split <;> rfl

theorem assumptions_intern (s : Session S T) (op : Op) (sort : LogicSort) (kind : TermKind)
    (children : List Term) (native : T) :
    (s.intern op sort kind children native).2.assumptions = s.assumptions := by
  unfold intern
  dsimp only
  split <;> rfl

theorem has_add (fresh : s.table.find? t = none) (native : T) :
    (s.add t native).Has u ↔ s.Has u ∨ u = t := by
  rw [Has, add, TermTable.find?_insert, fresh, Option.getD_none]
  by_cases same : t.key = u.key
  · rw [if_pos same, Option.some.injEq]
    refine ⟨fun h => .inr h.symm, fun h => ?_⟩
    cases h with
    | inl known =>
      rw [Has, TermTable.find?, ← same] at known
      exact absurd (fresh.symm.trans known) (by simp)
    | inr h => exact h.symm
  · rw [if_neg same]
    refine ⟨.inl, fun h => ?_⟩
    cases h with
    | inl known => exact known
    | inr h => exact absurd (congrArg Term.key h.symm) same

theorem getElem?_natives_add (t u : Term) (native : T) :
    (s.add t native).natives[u]? = if t.id = u.id then some native else s.natives[u]? := by
  rw [add, Std.HashMap.getElem?_insert]
  simp only [Term.beq_iff]

theorem Interned.tick (interned : s.Interned) : s.tick.Interned where
  keyed := interned.keyed
  numbered := interned.numbered
  supplied t ht := Nat.lt_succ_of_lt (interned.supplied t ht)
  identified := interned.identified
  children := interned.children
  formed := interned.formed
  natives := interned.natives

theorem interned_add (interned : s.Interned) (fresh : s.table.find? t = none)
    (number : t.session = s.number) (id : t.id = s.supply.nextTerm)
    (children : ∀ c ∈ t.children, s.Has c) (formed : t.Formed) (native : T) :
    (s.add t native).Interned where
  keyed key u found := by
    simp only [Session.add, TermTable.insert, Std.HashMap.containsThenInsertIfNew_snd,
      Std.HashMap.getElem?_insertIfNew] at found
    split at found
    · rename_i added
      cases found
      exact eq_of_beq added.1
    · exact interned.keyed key u found
  numbered u hu := by
    cases (has_add fresh native).mp hu with
    | inl hu => exact interned.numbered u hu
    | inr same => rw [same]; exact number
  supplied u hu := by
    cases (has_add fresh native).mp hu with
    | inl hu => exact Nat.lt_succ_of_lt (interned.supplied u hu)
    | inr same => rw [same, id]; exact Nat.lt_succ_self _
  identified u v hu hv same := by
    cases (has_add fresh native).mp hu with
    | inl hu =>
      have old := interned.supplied u hu
      cases (has_add fresh native).mp hv with
      | inl hv => exact interned.identified u v hu hv same
      | inr hv => rw [hv] at same; omega
    | inr hu =>
      cases (has_add fresh native).mp hv with
      | inl hv =>
        have old := interned.supplied v hv
        rw [hu] at same
        omega
      | inr hv => rw [hu, hv]
  children u hu c hc := by
    cases (has_add fresh native).mp hu with
    | inl hu =>
      obtain ⟨known, smaller⟩ := interned.children u hu c hc
      exact ⟨(has_add fresh native).mpr (.inl known), smaller⟩
    | inr same =>
      rw [same] at hc ⊢
      have known := children c hc
      exact ⟨(has_add fresh native).mpr (.inl known), id ▸ interned.supplied c known⟩
  formed u hu := by
    cases (has_add fresh native).mp hu with
    | inl hu => exact interned.formed u hu
    | inr same => rw [same]; exact formed
  natives u := by
    simp only [has_add fresh]
    rw [add, Std.HashMap.contains_insert, Bool.or_eq_true, Term.beq_iff, interned.natives]
    constructor
    · intro h
      cases h with
      | inl same => exact ⟨t, .inr rfl, same⟩
      | inr known =>
        obtain ⟨v, hv, same⟩ := known
        exact ⟨v, .inl hv, same⟩
    · rintro ⟨v, hv | rfl, same⟩
      · exact .inr ⟨v, hv, same⟩
      · exact .inl same

theorem extends_tick (s : Session S T) : Extends s s.tick :=
  ⟨rfl, fun _ h => h, fun _ _ h => h, fun _ _ h => h, rfl⟩

theorem Interned.extends_add (interned : s.Interned) (fresh : s.table.find? t = none)
    (id : t.id = s.supply.nextTerm) (native : T) : Extends s (s.add t native) where
  number := rfl
  has u hu := (has_add fresh native).mpr (.inl hu)
  natives u n found := by
    obtain ⟨v, hv, same⟩ := (interned.natives u).mp (contains_of_native found)
    have old := interned.supplied v hv
    rw [getElem?_natives_add, if_neg (by omega)]
    exact found
  symbols _ _ found := found
  aliasing := rfl

/-- Interning answers a term of the structure asked for, which is canonical from then on. -/
structure InternedAs (op : Op) (sort : LogicSort) (kind : TermKind) (children : List Term)
    (native : T) (s : Session S T) (t : Term) (s' : Session S T) : Prop where
  interned : s'.Interned
  extension : Extends s s'
  structure_eq : t.op = op ∧ t.sort = sort ∧ t.kind = kind ∧ t.children = children
  has : s'.Has t
  known_or_new : s' = s.tick ∧ s.Has t ∨
    s' = s.add t native ∧ s.table.find? t = none ∧ t.id = s.supply.nextTerm

theorem Interned.intern (interned : s.Interned) {op : Op} {sort : LogicSort} {kind : TermKind}
    {children : List Term} (known : ∀ c ∈ children, s.Has c)
    (formed : (s.candidate op sort kind children).Formed) (native : T) :
    InternedAs op sort kind children native s (s.intern op sort kind children native).1
      (s.intern op sort kind children native).2 := by
  cases found : s.table.find? (s.candidate op sort kind children) with
  | none =>
    rw [intern_miss found native]
    exact {
      interned := interned_add interned found rfl rfl known formed native
      extension := interned.extends_add found rfl native
      structure_eq := ⟨rfl, rfl, rfl, rfl⟩
      has := (has_add found native).mpr (.inr rfl)
      known_or_new := .inr ⟨rfl, found, rfl⟩ }
  | some t =>
    obtain ⟨ht, same⟩ := interned.has_of_find? found
    rw [intern_hit ht same native]
    have key : t.key = ⟨op, sort, kind, children.map Term.id⟩ := same
    rw [Term.key, TermKey.mk.injEq] at key
    obtain ⟨op_eq, sort_eq, kind_eq, ids⟩ := key
    -- Children of one identifier are one term, as both are in the table.
    have children_eq : t.children = children :=
      interned.eq_of_ids (fun c hc => (interned.children t ht c hc).1) known ids
    exact {
      interned := interned.tick
      extension := extends_tick s
      structure_eq := ⟨op_eq, sort_eq, kind_eq, children_eq⟩
      has := ht
      known_or_new := .inl ⟨rfl, ht⟩ }

theorem Canonical.tick (canonical : s.Canonical) : s.tick.Canonical :=
  canonical.congr rfl rfl rfl rfl rfl (Nat.le_succ _) (Nat.le_refl _) canonical.memo

theorem Canonical.add_other (canonical : s.Canonical) {native : T}
    (interned : (s.add t native).Interned) (fresh : s.table.find? t = none)
    (other : ∀ name, t.kind ≠ .symbol name) : (s.add t native).Canonical where
  toInterned := interned
  symbols name u := by
    rw [has_add fresh]
    refine (canonical.symbols name u).trans ⟨fun h => ⟨.inl h.1, h.2⟩, ?_⟩
    rintro ⟨known, kind⟩
    cases known with
    | inl known => exact ⟨known, kind⟩
    | inr same => exact absurd (same ▸ kind) (other name)
  assumptions n u found := (has_add fresh native).mpr (.inl (canonical.assumptions n u found))
  current := canonical.current
  memo := canonical.memo

theorem Canonical.add_symbol (canonical : s.Canonical) {native : T} {name : String}
    (interned : (s.add t native).Interned) (fresh : s.table.find? t = none)
    (symbol : t.kind = .symbol name) (unused : s.symbols[name]? = none) :
    Canonical { s.add t native with symbols := s.symbols.insert name t } where
  toInterned := interned.congr rfl rfl rfl (Nat.le_refl _)
  symbols name' u := by
    show (s.symbols.insert name t)[name']? = some u ↔ (s.add t native).Has u ∧ _
    rw [has_add fresh, Std.HashMap.getElem?_insert]
    by_cases same : name = name'
    · subst same
      rw [if_pos (by simp), Option.some.injEq]
      constructor
      · intro h
        subst h
        exact ⟨.inr rfl, symbol⟩
      · rintro ⟨known, kind⟩
        cases known with
        | inl known =>
          have found := (canonical.symbols name u).mpr ⟨known, kind⟩
          rw [unused] at found
          cases found
        | inr same => exact same.symm
    · rw [if_neg (by simpa using same), canonical.symbols name' u]
      refine ⟨fun h => ⟨.inl h.1, h.2⟩, ?_⟩
      rintro ⟨known, kind⟩
      cases known with
      | inl known => exact ⟨known, kind⟩
      | inr eq =>
        rw [eq, symbol, TermKind.symbol.injEq] at kind
        exact absurd kind same
  assumptions n u found := (has_add fresh native).mpr (.inl (canonical.assumptions n u found))
  current := canonical.current
  memo := canonical.memo

end Session

end FormulaGraph
