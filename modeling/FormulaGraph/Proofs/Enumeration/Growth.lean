import FormulaGraph.Proofs.Enumeration.Checks
import Mathlib.Data.List.Sort

/-!
Searches do not depend on what was made later. A search looks at the nodes below its formulas and at
the order of the symbols among them; nodes that are added to the store change neither, so it comes
to the same, with the same model or the same error. What a check answers depends on its search
alone.
-/

namespace FormulaGraph

instance : Std.Irrefl fun a b : Handle => a.index < b.index := ⟨fun _ => Nat.lt_irrefl _⟩

instance : Std.Antisymm fun a b : Handle => a.index < b.index :=
  ⟨fun _ _ before after => absurd after (Nat.lt_asymm before)⟩

variable {store store' : NodeStore} {env : Assignment} {t u : Handle} {formulas : List Handle}

namespace NodeStore

/-- The node is there. -/
def Knows (store : NodeStore) (t : Handle) : Prop := ∃ node sort, store.find? t = some (node, sort)

theorem Knows.of_below (known : store.Knows t) (below : store.Below u t) : store.Knows u := by
  induction below with
  | here => exact known
  | operand found hc _ ih => exact ih (find?_operand found hc)

theorem Knows.index_lt (known : store.Knows t) : t.index < store.size := by
  obtain ⟨node, sort, found⟩ := known
  exact index_lt_of_find? found

theorem symbolsOf_succeeds_iff :
    (∃ ts, store.symbolsOf formulas = .ok ts) ↔ ∀ t ∈ formulas, t.index < store.size := by
  unfold symbolsOf
  constructor
  · rintro ⟨ts, listed⟩ t ht
    split at listed
    · cases listed
    · rename_i none
      simpa using List.find?_eq_none.mp none t (List.mem_reverse.mpr ht)
  · intro bounded
    have none : (formulas.reverse.find? fun t => store.size ≤ t.index) = none := by
      simpa using bounded
    rw [none]
    exact ⟨_, rfl⟩

variable (extension : Extends store store')

include extension

theorem Knows.extend (known : store.Knows t) : store'.Knows t := by
  obtain ⟨node, sort, found⟩ := known
  exact ⟨node, sort, extension _ _ found⟩

theorem below_extends_iff (known : store.Knows t) : store'.Below u t ↔ store.Below u t := by
  induction h : t.index using Nat.strongRecOn generalizing t with
  | ind n ih =>
    subst h
    obtain ⟨node, sort, found⟩ := known
    rw [below_iff found, below_iff (extension _ _ found)]
    refine or_congr .rfl (exists_congr fun c => and_congr_right fun hc => ?_)
    exact ih c.index (operand_lt found hc) (find?_operand found hc) rfl

theorem isSymbol_extends_iff (known : store.Knows u) : store'.IsSymbol u ↔ store.IsSymbol u := by
  obtain ⟨node, sort, found⟩ := known
  rw [IsSymbol, IsSymbol, found, extension _ _ found]

theorem find_extends (known : store.Knows t) : store'.find t = store.find t := by
  obtain ⟨node, sort, found⟩ := known
  rw [find, find, found, extension _ _ found]

theorem eval_known (known : store.Knows t) : store'.eval env t = store.eval env t := by
  obtain ⟨node, sort, found⟩ := known
  exact eval_extends extension found

theorem symbolsOf_extends (known : ∀ t ∈ formulas, store.Knows t) :
    store'.symbolsOf formulas = store.symbolsOf formulas := by
  obtain ⟨ts, listed⟩ := symbolsOf_succeeds_iff.mpr fun t ht => (known t ht).index_lt
  obtain ⟨ts', listed'⟩ := symbolsOf_succeeds_iff.mpr fun t ht =>
    ((known t ht).extend extension).index_lt
  obtain ⟨members, ordered⟩ := symbolsOf_ok listed
  obtain ⟨members', ordered'⟩ := symbolsOf_ok listed'
  have same : ts' = ts := by
    refine ordered'.eq_of_mem_iff ordered fun u => ?_
    rw [members, members']
    constructor
    · rintro ⟨⟨t, ht, below⟩, symbol⟩
      have below := (below_extends_iff extension (known t ht)).mp below
      exact ⟨⟨t, ht, below⟩,
        (isSymbol_extends_iff extension ((known t ht).of_below below)).mp symbol⟩
    · rintro ⟨⟨t, ht, below⟩, symbol⟩
      have symbol := (isSymbol_extends_iff extension ((known t ht).of_below below)).mpr symbol
      exact ⟨⟨t, ht, (below_extends_iff extension (known t ht)).mpr below⟩, symbol⟩
  rw [listed, listed', same]

end NodeStore

section Extended

variable (extension : store.Extends store')

include extension

theorem Slot.layout_extends {ts : List Handle} (known : ∀ t ∈ ts, store.Knows t) (offset : Nat) :
    layout store' offset ts = layout store offset ts := by
  induction ts generalizing offset with
  | nil => rfl
  | cons t ts ih =>
    obtain ⟨first, rest⟩ := List.forall_mem_cons.mp known
    rw [layout, layout, NodeStore.find_extends extension first]
    simp only [ih rest]

namespace Search

theorem allHold_extends (known : ∀ t ∈ formulas, store.Knows t) :
    allHold store' env formulas = allHold store env formulas := by
  induction formulas with
  | nil => rfl
  | cons t ts ih =>
    obtain ⟨first, rest⟩ := List.forall_mem_cons.mp known
    rw [allHold, allHold, NodeStore.eval_known extension first, ih rest]

theorem tryFrom_extends (known : ∀ t ∈ formulas, store.Knows t) (slots : List Slot)
    (token : CancelToken) (limit counter : Nat) :
    tryFrom store' formulas slots token limit counter =
      tryFrom store formulas slots token limit counter := by
  induction counter using tryFrom.induct token limit with
  | case1 counter below raised =>
    rw [tryFrom, if_pos below, if_pos raised, tryFrom, if_pos below, if_pos raised]
  | case2 counter below idle ih =>
    conv_lhs => rw [tryFrom, if_pos below, if_neg idle, ih]
    conv_rhs => rw [tryFrom, if_pos below, if_neg idle]
    simp only [allHold_extends extension known]
  | case3 counter done => rw [tryFrom, if_neg done, tryFrom, if_neg done]

/-- A search for a model of known formulas comes to the same after nodes were added. -/
theorem run_extends (known : ∀ t ∈ formulas, store.Knows t) (token : CancelToken) :
    run store' formulas token = run store formulas token := by
  obtain ⟨ts, listed⟩ := NodeStore.symbolsOf_succeeds_iff.mpr fun t ht => (known t ht).index_lt
  have symbols : ∀ u ∈ ts, store.Knows u := by
    intro u hu
    obtain ⟨⟨t, ht, below⟩, -⟩ := ((NodeStore.symbolsOf_ok listed).1 u).mp hu
    exact (known t ht).of_below below
  rw [run, run, NodeStore.symbolsOf_extends extension known, listed, bind_of_ok rfl, bind_of_ok rfl,
    Slot.layout_extends extension symbols]
  simp only [tryFrom_extends extension known]

end Search

end Extended

namespace Enumerator

variable {e e' : Enumerator}

/-- How a check ends, from what its search came to. -/
def concluded (e : Enumerator) :
    Except Error Search.Finding → EStateM.Result Error Enumerator Verdict
  | .ok (.model env) => .ok .sat { e.forget with model := some env }
  | .ok .noModel => .ok .unsat e.forget
  | .ok .cutShort => .ok .unknown e.forget
  | .error x => .error x e.forget

theorem check_eq_concluded (e : Enumerator) (extra : List Handle) :
    check extra .idle e = e.concluded (e.search extra .idle) := by
  have idle : (decide (0 < e.delay) && CancelToken.idle.whileStalled) = false := Bool.and_false _
  show (if decide (0 < e.delay) && CancelToken.idle.whileStalled then _ else _ :
    Action Enumerator Verdict) e.forget = _
  rw [idle]
  show ((Action.ofExcept (e.search extra .idle) >>= _ : Action Enumerator Verdict)) e.forget = _
  cases e.search extra .idle with
  | error x => rfl
  | ok finding => cases finding <;> rfl

theorem check_congr {extra extra' : List Handle}
    (same : e'.search extra' .idle = e.search extra .idle) :
    (check extra' .idle).outcome e' = (check extra .idle).outcome e ∧
      ((check extra' .idle).finalState e').model = ((check extra .idle).finalState e).model := by
  unfold Action.outcome Action.finalState
  rw [check_eq_concluded, check_eq_concluded, same]
  cases e.search extra .idle with
  | error x => exact ⟨rfl, rfl⟩
  | ok finding => cases finding <;> exact ⟨rfl, rfl⟩

end Enumerator

end FormulaGraph
