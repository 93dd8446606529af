import FormulaGraph.Proofs.Solver.Occurrences
import FormulaGraph.Proofs.Solver.Valuation

/-!
The value of a term after a substitution of symbols is the value that it had before if each symbol
is given the value of what replaces it. All symbols are replaced at once, and so are their values;
what replaces them is evaluated with the values from before.
-/

namespace FormulaGraph

/-- If the first evaluation succeeds, so does the second, with the same value; under the condition
they also fail alike. -/
def Follows {α : Type} (condition : Prop) (a b : Except Error α) : Prop :=
  (∀ x, a = .ok x → b = .ok x) ∧ (condition → a = b)

namespace Follows

variable {α β γ δ : Type} {condition : Prop} {a b : Except Error α}

theorem of_eq (same : a = b) : Follows condition a b :=
  ⟨fun _ ok => same ▸ ok, fun _ => same⟩

theorem bind {f g : α → Except Error β} (first : Follows condition a b)
    (next : ∀ x, Follows condition (f x) (g x)) : Follows condition (a >>= f) (b >>= g) := by
  refine ⟨fun y ok => ?_, fun holds => ?_⟩
  · obtain ⟨x, left, right⟩ := ok_of_bind ok
    rw [first.1 x left]
    exact (next x).1 y right
  · rw [first.2 holds]
    cases b with
    | ok x => exact (next x).2 holds
    | error e => rfl

theorem mapM {f : γ → Except Error β} {g : δ → Except Error β} {cs : List γ} {ds : List δ}
    (each : List.Forall₂ (fun c d => Follows condition (f c) (g d)) cs ds) :
    Follows condition (cs.mapM f) (ds.mapM g) := by
  induction each with
  | nil => exact of_eq rfl
  | cons first _ ih =>
    rw [List.mapM_cons, List.mapM_cons]
    exact first.bind fun _ => ih.bind fun _ => of_eq rfl

end Follows

namespace Solver

variable {s s' : Solver Enumerator LogicSort Handle} {m : TermMap} {t u k v : Term} {n : Handle}
  {env : Assignment} {issued : List Term}

/-- The assignment in which the keys of a map have the values of what replaces them, as far as that
has one. -/
def updated (s : Solver Enumerator LogicSort Handle) (m : TermMap) (env : Assignment) :
    Assignment := fun n =>
  match m.toList.find? fun p => s.session.natives[p.1]? = some n with
  | some (_, v) => (s.valueUnder env v).toOption
  | none => env n

theorem Ready.updated_eq (ready : Ready m s) (env : Assignment) (hk : s.session.Has k)
    (recorded : s.session.natives[k]? = some n) :
    s.updated m env n =
      match m[k]? with
      | some v => (s.valueUnder env v).toOption
      | none => env n := by
  rw [updated]
  cases first : m.toList.find? fun p => s.session.natives[p.1]? = some n with
  | some p =>
    obtain ⟨k', v⟩ := p
    have member := List.mem_of_find?_eq_some first
    have recorded' : s.session.natives[k']? = some n := by simpa using List.find?_some first
    have same := ready.coherent.eq_of_native hk (ready.suits (k', v) member).1 recorded recorded'
    have found : m[k]? = some v :=
      Std.HashMap.getElem?_eq_some_iff_exists_beq_and_mem_toList.mpr ⟨k', by simp [same], member⟩
    rw [found]
  | none =>
    have absent : m[k]? = none := by
      by_contra present
      obtain ⟨v, found⟩ := Option.ne_none_iff_exists'.mp present
      obtain ⟨k', same, member⟩ :=
        Std.HashMap.getElem?_eq_some_iff_exists_beq_and_mem_toList.mp found
      have eq :=
        ready.interned.identified k k' hk (ready.suits (k', v) member).1 (Term.beq_iff.mp same)
      have other := List.find?_eq_none.mp first (k', v) member
      rw [← eq] at other
      exact other (by simpa using recorded)
    rw [absent]

theorem Ready.valueUnder_untouched (ready : Ready m s) (ht : s.session.Has t)
    (untouched : t.Untouched m) :
    s.valueUnder (s.updated m env) t = s.valueUnder env t := by
  obtain ⟨n, recorded⟩ := ready.coherent.native ht
  have number := ready.interned.numbered t ht
  rw [valueUnder_eq number recorded, valueUnder_eq number recorded]
  apply NodeStore.eval_congr
  rintro c below ⟨name, sort, found⟩
  obtain ⟨a, occurs, recorded'⟩ := ready.coherent.of_below ht recorded below
  have given := ready.updated_eq env (ready.interned.has_of_occursIn ht occurs) recorded'
  rw [untouched a occurs] at given
  rw [NodeStore.eval_of_find? found, NodeStore.eval_of_find? found,
    NodeStore.evalNode, NodeStore.evalNode, given]

theorem Ready.valueUnder_key {x : Datum} (ready : Ready m s) (hk : s.session.Has k)
    (symbol : k.isSymbol = true) (found : m[k]? = some v) (value : s.valueUnder env v = .ok x) :
    s.valueUnder (s.updated m env) k = .ok x := by
  obtain ⟨n, ns, node, recorded, -, there, built⟩ := ready.coherent.node hk
  have given := ready.updated_eq env hk recorded
  simp only [found, value, Except.toOption] at given
  rw [valueUnder_eq (ready.interned.numbered k hk) recorded, NodeStore.eval_of_find? there]
  obtain ⟨name, kind⟩ := Term.isSymbol_iff.mp symbol
  rw [kind] at built
  obtain rfl := built.of_symbol
  rw [NodeStore.evalNode, given]

/-- What replacing makes of a term has the value that the term has under the update. -/
theorem Ready.follows_replaced {condition : Prop} (ready : Ready m s)
    (kept : Kept Enumerator.contract s s')
    (keys : OnSymbols m) (ht : s.session.Has t) (hu : s'.session.Has u)
    (shape : u.shape = t.replaced m) (bare : ∀ k v : Term, m[k]? = some v → ¬ k.Sheltered t)
    (valued : ∀ k v : Term, k.OccursIn t → m[k]? = some v → condition →
      ∃ x, s.valueUnder env v = .ok x) :
    Follows condition (s'.valueUnder env u) (s.valueUnder (s.updated m env) t) := by
  have interned := ready.interned
  have interned' := kept.coherent.canonical.toInterned
  induction t generalizing u with
  | node t ih =>
    cases found : m[t]? with
    | some v =>
      obtain ⟨hv, -⟩ := ready.image ht found
      have same : u = v := interned'.eq_of_shape hu (kept.extension.has v hv)
        (shape.trans (Term.replaced_key found))
      have key : ∀ x, s.valueUnder env v = .ok x → s.valueUnder (s.updated m env) t = .ok x :=
        fun x => ready.valueUnder_key ht (keys.key ready ht found) found
      rw [same, kept.valueUnder ready.coherent hv]
      refine ⟨fun x value => key x value, fun holds => ?_⟩
      obtain ⟨x, value⟩ := valued t v .here found holds
      rw [value, key x value]
    | none =>
      have stays : t.Untouched m → t.replaced m = t.shape →
          Follows condition (s'.valueUnder env u) (s.valueUnder (s.updated m env) t) := by
        intro untouched same
        have eq := interned'.eq_of_shape hu (kept.extension.has t ht) (shape.trans same)
        rw [eq, kept.valueUnder ready.coherent ht, ready.valueUnder_untouched ht untouched]
        exact .of_eq rfl
      have formed := interned.formed t ht
      cases kind : t.kind with
      | symbol name | value l =>
        rw [Term.Formed, kind] at formed
        have single : ∀ a : Term, a.OccursIn t → a = t := by
          intro a occurs
          simpa [formed.2] using Term.occursIn_iff.mp occurs
        have untouched : t.Untouched m := fun a occurs => single a occurs ▸ found
        exact stays untouched untouched.replaced
      | constArray =>
        have untouched : t.Untouched m := by
          intro a occurs
          by_contra present
          obtain ⟨v, found⟩ := Option.ne_none_iff_exists'.mp present
          exact bare a v found ⟨t, .here, kind, occurs⟩
        exact stays untouched untouched.replaced
      | application =>
        have node : t.isValue = false := by rw [Term.isValue, kind]
        rw [Term.replaced_node found node, Term.shape_eq, Shape.mk.injEq] at shape
        obtain ⟨op, sort, kind', shapes⟩ := shape
        rw [← List.forall₂_eq_eq_eq, List.forall₂_map_left_iff,
          List.forall₂_map_right_iff] at shapes
        obtain ⟨n, ns, made, recorded, renders, there, built⟩ := ready.coherent.node ht
        obtain ⟨n', ns', made', recorded', renders', there', built'⟩ := kept.coherent.node hu
        rw [kind] at built
        rw [kind', kind, op, sort] at built'
        obtain rfl := built.of_application
        obtain rfl := built'.of_application
        rw [valueUnder_eq (interned.numbered t ht) recorded,
          valueUnder_eq (interned'.numbered u hu) recorded', NodeStore.eval_of_find? there,
          NodeStore.eval_of_find? there', NodeStore.evalNode, NodeStore.evalNode, sort]
        have mates :
          List.Forall₂ (fun c n' => ∃ d : Term, s'.session.Has d ∧ d.shape = c.replaced m ∧
            s'.session.natives[d]? = some n') t.children ns' := by
          refine forall₂_join shapes renders' fun d hd c n' shape recorded => ?_
          exact ⟨d, (interned'.children u hu d hd).1, shape, recorded⟩
        have operands : List.Forall₂ (fun n' n => Follows condition (s'.engine.store.eval env n')
            (s.engine.store.eval (s.updated m env) n)) ns' ns := by
          refine forall₂_join mates renders ?_
          rintro c hc n' n ⟨d, hd, shape, recorded'⟩ recorded
          have hc' := (interned.children t ht c hc).1
          have below := ih c hc hc' hd shape
            (fun k v found sheltered => bare k v found (sheltered.inChild hc))
            fun k v occurs => valued k v (.inChild hc occurs)
          rwa [valueUnder_eq (interned.numbered c hc') recorded,
            valueUnder_eq (interned'.numbered d hd) recorded'] at below
        exact (Follows.mapM operands).bind fun _ => .of_eq rfl

theorem Ready.admits_updated (ready : Ready m s) (admits : s.engine.store.Admits env) :
    s.engine.store.Admits (s.updated m env) := by
  intro n x given
  rw [updated] at given
  cases first : m.toList.find? fun p => s.session.natives[p.1]? = some n with
  | some p =>
    obtain ⟨k, v⟩ := p
    rw [first] at given
    have recorded : s.session.natives[k]? = some n := by simpa using List.find?_some first
    obtain ⟨hk, hv, sorts⟩ := ready.suits (k, v) (List.mem_of_find?_eq_some first)
    obtain ⟨n', ns, node, recorded', -, found, -⟩ := ready.coherent.node hk
    cases recorded.symm.trans recorded'
    cases value : s.valueUnder env v with
    | ok y =>
      simp only [value, Except.toOption] at given
      cases given
      exact ⟨node, k.sort, found, sorts ▸ holds_of_valueUnder ready.coherent hv admits value⟩
    | error e =>
      simp only [value, Except.toOption] at given
      cases given
  | none =>
    rw [first] at given
    exact admits n x given

/-- The substitution lemma. If no key is sheltered by a constant array, the result of a substitution
has under an assignment the value that the term has under the update of the assignment: so it is if
the result has a value, and if the replacements of all keys that occur have values, the result and
the term have the same value or fail alike. -/
theorem valueUnder_substitute (run : Run Enumerator.Fresh s issued)
    (ht : s.session.Has t) (suits : s.Suits m)
    (keys : OnSymbols m) (bare : ∀ k v : Term, m[k]? = some v → ¬ k.Sheltered t)
    (admits : s.engine.store.Admits env) :
    s.engine.store.Admits (s.updated m env) ∧ ∃ u s', substitute t m s = .ok u s' ∧
      (∀ x, s'.valueUnder env u = .ok x → s.valueUnder (s.updated m env) t = .ok x) ∧
      ((∀ k v : Term, k ∈ t.freeSymbols → m[k]? = some v → ∃ x, s.valueUnder env v = .ok x) →
        s'.valueUnder env u = s.valueUnder (s.updated m env) t) := by
  have ready : Ready m s := ⟨(run.coherent Enumerator.contract_honoured).1, suits⟩
  obtain ⟨u, s', done, kept, ⟨hu, shape⟩, -⟩ := ready.substitute ht
  have valued : ∀ k v : Term, k.OccursIn t → m[k]? = some v →
      (∀ k v : Term, k ∈ t.freeSymbols → m[k]? = some v → ∃ x, s.valueUnder env v = .ok x) →
        ∃ x, s.valueUnder env v = .ok x := by
    intro k v occurs found succeed
    have symbol := keys.key ready (ready.interned.has_of_occursIn ht occurs) found
    exact succeed k v ((ready.interned.mem_freeSymbols ht).mpr ⟨occurs, symbol⟩) found
  exact ⟨ready.admits_updated admits, u, s', done,
    ready.follows_replaced kept keys ht hu shape bare valued⟩

/-- A symbol is replaced by its negation below a negation: the value is found with the replacement's
value from before, which is true as the symbol is false. -/
theorem valueUnder_substitute_negation :
    ∃ (s s' : Solver Enumerator LogicSort Handle) (x t u : Term),
      Run Enumerator.Fresh s [x, t] ∧ x.kind = .symbol "x" ∧ t.op = PrimOp.not ∧ t.children = [x] ∧
        substitute t (Std.HashMap.insert {} x t) s = .ok u s' ∧
        s.valueUnder (fun _ => none) t = .ok (.bool true) ∧
        s'.valueUnder (fun _ => none) u = .ok (.bool false) := by
  obtain ⟨s, x, t, run, -, ⟨hx, sort, kind, leaf⟩, ht, op, sort', kind', children⟩ :=
    run_negation {}
  have fresh : Run Enumerator.Fresh s [x, t] := run.mono fun _ unused => unused.toFresh
  have coherent := run.settled.1
  have interned := coherent.canonical.toInterned
  have symbol : x.isSymbol = true := by
    rw [Term.isSymbol, Term.symbolName?, kind]
    rfl
  have suits : s.Suits (Std.HashMap.insert {} x t) :=
    (suits_empty s).insert hx ht (sort.trans sort'.symm)
  have keys : OnSymbols (Std.HashMap.insert {} x t) :=
    onSymbols_insert (fun p hp => absurd hp (by simp)) symbol
  have ready : Ready _ s := ⟨coherent, suits⟩
  have found : (Std.HashMap.insert {} x t : TermMap)[x]? = some t :=
    Std.HashMap.getElem?_insert_self
  have bare : ∀ k v : Term, (Std.HashMap.insert {} x t : TermMap)[k]? = some v →
      ¬ k.Sheltered t := by
    rintro k v - ⟨b, occurs, array, -⟩
    have which : b = t ∨ b = x := by
      simpa [Term.occursIn_iff (t := t), Term.occursIn_iff (t := x), children, leaf] using occurs
    obtain rfl | rfl := which
    · rw [kind'] at array
      cases array
    · rw [kind] at array
      cases array
  have before := valueUnder_symbol_none coherent hx sort kind
  have negated := valueUnder_not coherent ht op kind' children before
  have updated :=
    valueUnder_not coherent ht op kind' children (ready.valueUnder_key hx symbol found negated)
  obtain ⟨-, u, s', done, -, same⟩ := valueUnder_substitute fresh ht suits keys bare
    (NodeStore.admits_none s.engine.store)
  refine ⟨s, s', x, t, u, fresh, kind, op, children, done, negated, (same ?_).trans updated⟩
  intro k v member found'
  obtain ⟨occurs, symbol'⟩ := (interned.mem_freeSymbols ht).mp member
  have which : k = t ∨ k = x := by
    simpa [Term.occursIn_iff (t := t), Term.occursIn_iff (t := x), children, leaf] using occurs
  obtain rfl | rfl := which
  · rw [Term.isSymbol, Term.symbolName?, kind'] at symbol'
    cases symbol'
  · cases found.symm.trans found'
    exact ⟨_, negated⟩

end Solver

end FormulaGraph
