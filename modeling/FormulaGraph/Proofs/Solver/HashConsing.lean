import FormulaGraph.Proofs.Solver.OverEnumerator

/-!
Hash-consing. Whatever engine a solver runs on, the terms that it has answered in a session are
canonical: one node for each structure, with its children in the table and older than itself.
-/

namespace FormulaGraph

namespace Session

variable {S T : Type} [BEq T] [Hashable T] {s : Session S T} {key : TermKey} {t u : Term}

theorem Interned.has_of_entry (interned : s.Interned) (entry : s.table.entries[key]? = some t) :
    s.Has t ∧ t.key = key := by
  have same := interned.keyed key t entry
  refine ⟨?_, same⟩
  rw [Has, TermTable.find?, same]
  exact entry

theorem Interned.id_lt_of_occursIn (interned : s.Interned) (ht : s.Has t) (occurs : u.OccursIn t) :
    u = t ∨ u.id < t.id := by
  cases occurs with
  | here => exact .inl rfl
  | inChild child below =>
    have ordered := interned.ordered ht
    have upper := ordered t .here _ child
    have lower := (ordered.of_occursIn (.inChild child .here)).id_le below
    exact .inr (by omega)

end Session

namespace Solver

variable {σ S T : Type} [BEq T] [Hashable T] [Engine σ S T] {s : Solver σ S T}
  {issued : List Term}

/-- In every state that a solver can reach, two terms that were answered in its session are one node
if and only if they have one shape; the table has exactly one entry of this shape; and every entry
has its children in the table, and nothing below it that is not older. -/
theorem answered_canonical [EquivBEq T] [LawfulHashable T]
    (run : Run (fun _ : σ => True) s issued) :
    (∀ a ∈ issued, ∀ b ∈ issued, a.session = s.session.number → b.session = s.session.number →
      (a.id = b.id ↔ a.shape = b.shape)) ∧
    (∀ a ∈ issued, a.session = s.session.number → ∀ (key : TermKey) (u : Term),
      s.session.table.entries[key]? = some u ∧ u.shape = a.shape ↔ key = a.key ∧ u = a) ∧
    (∀ (key : TermKey) (t : Term), s.session.table.entries[key]? = some t → ∀ c ∈ t.children,
      s.session.table.entries[c.key]? = some c ∧ c.id < t.id) ∧
    ∀ (key : TermKey) (t : Term), s.session.table.entries[key]? = some t →
      t.Acyclic ∧ ∀ u : Term, u.OccursIn t → u = t ∨ u.compare t = .lt := by
  obtain ⟨coherent, known⟩ := run.coherent Contract.free_honoured
  have interned := coherent.canonical.toInterned
  have has : ∀ a ∈ issued, a.session = s.session.number → s.session.Has a :=
    fun a ha number => (known a ha).has number
  refine ⟨?_, ?_, ?_, ?_⟩
  · intro a ha b hb numberA numberB
    constructor
    · intro same
      rw [interned.identified a b (has a ha numberA) (has b hb numberB) same]
    · intro same
      rw [interned.eq_of_shape (has a ha numberA) (has b hb numberB) same]
  · intro a ha number key u
    constructor
    · rintro ⟨entry, same⟩
      obtain ⟨hu, keyed⟩ := interned.has_of_entry entry
      have eq := interned.eq_of_shape hu (has a ha number) same
      exact ⟨by rw [← keyed, eq], eq⟩
    · rintro ⟨keyed, same⟩
      rw [keyed, same]
      exact ⟨has a ha number, rfl⟩
  · intro key t entry c hc
    exact interned.children t (interned.has_of_entry entry).1 c hc
  · intro key t entry
    have ht := (interned.has_of_entry entry).1
    refine ⟨(interned.ordered ht).acyclic, fun u occurs => ?_⟩
    cases interned.id_lt_of_occursIn ht occurs with
    | inl same => exact .inl same
    | inr older => exact .inr (Nat.compare_eq_lt.mpr older)

/-- The two truth values, made one after the other on the enumerating engine. -/
theorem answered_canonical_truth_values :
    ∃ (s : Solver Enumerator LogicSort Handle) (t f : Term),
      Run (fun _ => True) s [t, f] ∧ t.kind = .value (.bool true) ∧
        f.kind = .value (.bool false) ∧ (t.id = f.id ↔ t.shape = f.shape) := by
  obtain ⟨s, t, f, run, coherent, ⟨ht, hf⟩, ⟨-, isTrue⟩, -, isFalse⟩ :=
    run_truth_values (fun _ => True) trivial (Enumerator.fresh_new "m")
  have numbered := coherent.canonical.numbered
  have canonical := (answered_canonical run).1
  have same := canonical t List.mem_cons_self f (List.mem_cons_of_mem _ List.mem_cons_self)
    (numbered t ht) (numbered f hf)
  exact ⟨s, t, f, run, isTrue, isFalse, same⟩

end Solver

end FormulaGraph
