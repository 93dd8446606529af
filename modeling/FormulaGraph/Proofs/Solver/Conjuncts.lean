import FormulaGraph.Proofs.Enumeration.Totality
import FormulaGraph.Proofs.Solver.Occurrences
import FormulaGraph.Proofs.Solver.Verdicts
import FormulaGraph.Proofs.Term.Conjuncts

/-!
The conjuncts of the terms of a session. Identifiers tell the nodes of such a term apart, so its
conjuncts are the leaves of its nested conjunctions; and whatever the values of the symbols, a term
of truth values is true just if all its conjuncts are.
-/

namespace FormulaGraph

theorem Datum.apply_and_eq_true_iff {op : Op} {args : List Datum} {sort : LogicSort}
    (prim : op.prim = .and) :
    Datum.apply op args sort = .ok (.bool true) ↔ ∀ x ∈ args, x = .bool true := by
  have applies : Datum.apply op args sort = args.mapM asBool >>= fun bs =>
      .ok (.bool (bs.all id)) := by
    simp only [Datum.apply, applyCore, prim]
    rfl
  rw [applies]
  constructor
  · intro done x hx
    obtain ⟨bs, read, all⟩ := ok_of_bind done
    cases holds : bs.all id with
    | false =>
      rw [holds] at all
      cases all
    | true =>
      obtain ⟨b, hb, truth⟩ := exists_of_forall₂ (forall₂_of_mapM read).flip hx
      rw [asBool_ok truth, show b = true from List.all_eq_true.mp holds b hb]
  · intro each
    have read : ∀ x ∈ args, x.asBool = .ok true := by
      intro x hx
      rw [each x hx]
      rfl
    rw [bind_of_ok (mapM_of_forall_eq read)]
    simp

namespace Solver

section OverEnumerator

variable {s : Solver Enumerator LogicSort Handle} {t : Term} {env : Assignment}

theorem Coherent.truths_of_and (coherent : s.Coherent Enumerator.contract) (ht : s.session.Has t)
    (prim : t.op.prim = .and) : t.kind = .application ∧ ∀ c ∈ t.children, c.sort = .bool :=
  coherent.truths_of_connective ht (by rw [prim]; rfl)

theorem valueUnder_and (coherent : s.Coherent Enumerator.contract) (ht : s.session.Has t)
    (prim : t.op.prim = .and) : s.valueUnder env t = .ok (.bool true) ↔
      ∀ c ∈ t.children, s.valueUnder env c = .ok (.bool true) := by
  obtain ⟨kind, -⟩ := coherent.truths_of_and ht prim
  constructor
  · intro done c hc
    obtain ⟨xs, values⟩ := exists_valueUnder_children coherent ht kind done
    rw [valueUnder_application coherent ht kind rfl values] at done
    obtain ⟨x, hx, valued⟩ := exists_of_forall₂ values.flip hc
    rw [valued, (Datum.apply_and_eq_true_iff prim).mp done x hx]
  · intro each
    have values := forall₂_of_mapM (mapM_of_forall_eq each)
    rw [valueUnder_application coherent ht kind rfl values, Datum.apply_and_eq_true_iff prim]
    simp

/-- Below the conjunctions of a truth value there are only truth values, so none of the conjunctions
is bitwise. -/
theorem valueUnder_leaves (coherent : s.Coherent Enumerator.contract) (ht : s.session.Has t)
    (sort : t.sort = .bool) (bitwise : Bool) : s.valueUnder env t = .ok (.bool true) ↔
      ∀ l ∈ t.leaves bitwise, s.valueUnder env l = .ok (.bool true) := by
  induction t with
  | node t ih =>
    by_cases conjoins : t.Conjoins bitwise
    · obtain prim | ⟨-, -, bits⟩ := conjoins
      · obtain ⟨-, truths⟩ := coherent.truths_of_and ht prim
        rw [Term.leaves_of_conjoins (.inl prim), valueUnder_and coherent ht prim,
          List.forall_mem_flatMap]
        have has := fun c hc => (coherent.canonical.children t ht c hc).1
        exact forall₂_congr fun c hc => ih c hc (has c hc) (truths c hc)
      · rw [sort] at bits
        cases bits
    · rw [Term.leaves_of_not_conjoins conjoins, List.forall_mem_singleton]

end OverEnumerator

section Partition

variable {σ S T : Type} [BEq T] [Hashable T] [Engine σ S T] {s : Solver σ S T} {issued : List Term}

/-- The conjuncts of a term are the leaves of its nested conjunctions, from left to right and each
at the first of its places, in all terms of a session. On the enumerating engine a truth value is
true just if all its conjuncts are, whatever the values of the symbols. -/
theorem conjuncts_right [EquivBEq T] [LawfulHashable T] (run : Run (fun _ : σ => True) s issued) :
    (∀ t : Term, t.Discernible → ∀ bitwise, t.conjuncts bitwise = (t.leaves bitwise).eraseDups) ∧
    (∀ t, s.session.Has t → t.Discernible) ∧
    ∀ (e : Solver Enumerator LogicSort Handle) (issued' : List Term),
      Run Enumerator.Fresh e issued' →
      ∀ t, e.session.Has t → t.sort = .bool → ∀ bitwise env, e.valueUnder env t = .ok (.bool true) ↔
        ∀ c ∈ t.conjuncts bitwise, e.valueUnder env c = .ok (.bool true) := by
  refine ⟨fun t discernible => ?_, fun t ht => ?_, fun e issued' run t ht sort bitwise env => ?_⟩
  · exact Term.conjuncts_eq discernible.identified .here
  · obtain ⟨coherent, -⟩ := run.coherent (Contract.free_honoured (σ := σ) (S := S) (T := T))
    exact coherent.canonical.toInterned.allIdentified.discernible ht
  · obtain ⟨coherent, -⟩ := run.coherent Enumerator.contract_honoured
    have identified := coherent.canonical.toInterned.allIdentified
    rw [valueUnder_leaves coherent ht sort bitwise]
    exact forall_congr' fun c => by rw [Term.mem_conjuncts (identified.discernible ht)]

end Partition

section Shared

theorem Run.conjoins {s : Solver Enumerator LogicSort Handle} {start : Enumerator → Prop}
    {issued : List Term}
    {x y : Term} (run : Run start s issued) (coherent : s.Coherent Enumerator.contract)
    (hx : (x ∈ issued ∧ s.session.Has x) ∧ x.sort = .bool)
    (hy : (y ∈ issued ∧ s.session.Has y) ∧ y.sort = .bool) :
    ∃ u s', Run start s' (issued ++ [u]) ∧ Kept Enumerator.contract s s' ∧ s'.session.Has u ∧
      u.op.prim = .and ∧ u.sort = .bool ∧ u.children = [x, y] := by
  have derived : (PrimOp.and : Op).resultSort ([x, y].map Term.sort) = .ok (some .bool) := by
    rw [List.map_cons, List.map_cons, hx.2, hy.2]
    rfl
  have known : ∀ a ∈ [x, y], a ∈ issued ∧ s.session.Has a := by
    simp [hx.1, hy.1]
  obtain ⟨u, s', conjoined, kept, hu, op, sort, -, children⟩ :=
    makeTerm_succeeds coherent (fun a ha => (known a ha).2) derived
  have longer := run.answer_term (.command (.makeTerm PrimOp.and [x, y]))
    (fun a ha b below _ => ⟨a, (known a ha).1, below⟩) rfl conjoined kept.extension.number
  exact ⟨u, s', longer, kept, hu, by rw [op], sort, children⟩

/-- A conjunction of the truth values is conjoined with itself: each of them is one conjunct, and as
one is false, so is the whole. -/
theorem conjuncts_right_shared : ∃ (s : Solver Enumerator LogicSort Handle) (t f a b : Term),
    Run Enumerator.Fresh s [t, f, a, b] ∧
      (t.kind = .value (.bool true) ∧ f.kind = .value (.bool false)) ∧
      (a.children = [t, f] ∧ b.children = [a, a]) ∧ b.conjuncts true = [t, f] ∧
      ∀ env, s.valueUnder env b ≠ .ok (.bool true) := by
  obtain ⟨s, t, f, run, coherent, ⟨ht, hf⟩, ⟨sortT, kindT⟩, sortF, kindF⟩ :=
    run_truth_values Enumerator.Fresh (Enumerator.fresh_new "m") (Enumerator.fresh_new "m")
  obtain ⟨a, s₁, run₁, kept₁, ha, primA, sortA, childrenA⟩ :=
    run.conjoins coherent ⟨⟨by simp, ht⟩, sortT⟩ ⟨⟨by simp, hf⟩, sortF⟩
  obtain ⟨b, s₂, run₂, kept₂, hb, primB, sortB, childrenB⟩ :=
    run₁.conjoins kept₁.coherent ⟨⟨by simp, ha⟩, sortA⟩ ⟨⟨by simp, ha⟩, sortA⟩
  have hf₂ := kept₂.extension.has f (kept₁.extension.has f hf)
  have ht₂ := kept₂.extension.has t (kept₁.extension.has t ht)
  have value : ∀ {x : Term} {v : Bool}, s₂.session.Has x → x.kind = .value (.bool v) →
      x.leaves true = [x] := by
    intro x v hx kind
    have formed := kept₂.coherent.canonical.formed x hx
    rw [Term.Formed, kind] at formed
    exact Term.leaves_of_not_conjoins (by simp [Term.Conjoins, formed.1, Op.null])
  have leaves : b.leaves true = [t, f, t, f] := by
    rw [Term.leaves_of_conjoins (.inl primB), childrenB]
    simp only [List.flatMap_cons, Term.leaves_of_conjoins (.inl primA), childrenA,
      value ht₂ kindT, value hf₂ kindF]
    rfl
  have other : (f == t) = false := by
    rw [Bool.eq_false_iff]
    intro same
    rw [kept₂.coherent.canonical.identified f t hf₂ ht₂ (Term.beq_iff.mp same), kindT] at kindF
    exact absurd kindF (by decide)
  obtain ⟨partition, discernible, truths⟩ := conjuncts_right (run₂.mono fun _ _ => trivial)
  have conjuncts : b.conjuncts true = [t, f] := by
    rw [partition b (discernible b hb), leaves]
    simp [List.eraseDups_cons, other]
  refine ⟨s₂, t, f, a, b, run₂, ⟨kindT, kindF⟩, ⟨childrenA, childrenB⟩, conjuncts,
    fun env holds => ?_⟩
  have truth := (truths s₂ _ run₂ b hb sortB true env).mp holds f (by simp [conjuncts])
  rw [valueUnder_bool kept₂.coherent hf₂ kindF] at truth
  cases truth

end Shared

end Solver

end FormulaGraph
