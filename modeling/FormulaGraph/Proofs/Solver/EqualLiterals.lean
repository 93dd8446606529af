import FormulaGraph.Proofs.Literal.Element
import FormulaGraph.Proofs.Solver.Continuation
import FormulaGraph.Proofs.Solver.Translation

/-!
Equal literals are one node, whichever way they are made and whatever happens in between: two
requests for a literal answer one node just if they name one element of one sort. A bit-vector that
is handed over as a literal is taken as it is, though, so this needs the bits above its width to be
clear.
-/

namespace FormulaGraph

/-- The sort and the element that a request names, if it asks for a literal. -/
def Request.literal? : Request → Option (LogicSort × Element)
  | .command (.makeValue l sort) => (l.element? sort).map (sort, ·)
  | .makeBool b => some (.bool, .truth b)
  | .makeInt i sort => (Element.ofInt i.toInt sort).map (sort, ·)
  | .parseValue repr sort base => (Literal.spelt? repr base sort).map (sort, ·)
  | _ => none

/-- A literal that the request hands over is trimmed. -/
def Request.Trimmed : Request → Prop
  | .command (.makeValue l _) => l.Trimmed
  | _ => True

theorem Session.Interned.eq_of_value {S T : Type} [BEq T] [Hashable T]
    {s : Session S T} {t u : Term}
    {l : Literal} (interned : s.Interned) (ht : s.Has t) (hu : s.Has u) (sort : t.sort = u.sort)
    (kind : t.kind = .value l) (kind' : u.kind = .value l) : t = u := by
  have formed := interned.formed t ht
  have formed' := interned.formed u hu
  rw [Term.Formed, kind] at formed
  rw [Term.Formed, kind'] at formed'
  refine interned.eq_of_shape ht hu (Term.shape_eq_iff.mpr ⟨?_, sort, kind.trans kind'.symm, ?_⟩)
  · rw [formed.1, formed'.1]
  · rw [formed.2, formed'.2]

namespace Solver

open FormulaGraph.Action

variable {σ S T : Type} [BEq T] [Hashable T] [Engine σ S T] {K : Contract σ S T} {start : σ → Prop}
  {s s' s₁ s₂ s₃ : Solver σ S T} {t t' : Term} {l : Literal}
    {sort sort' : LogicSort} {x x' : Element}
  {q q' : Request} {issued : List Term}

theorem makeInt_eq {i : Int64} (denotes : Element.ofInt i.toInt sort = some x) :
    ∃ l, (makeInt i sort : Action (Solver σ S T) Term) = makeValue l sort ∧
      l.element? sort = some x ∧ l.Trimmed := by
  cases sort with
  | int => exact ⟨.int (.ofInt64 i), rfl, denotes, trivial⟩
  | real =>
    refine ⟨.real (.ofInt64 i) 1, rfl, ?_, trivial⟩
    have one : (1 : Int128).val = 1 := rfl
    rw [Literal.element?, one, if_neg (by decide), Int.cast_one, div_one]
    exact denotes
  | bitVec w =>
    refine ⟨.ofBits w (BitVec.ofInt 128 i.toInt), rfl, ?_, Literal.trimmed_ofBits w _⟩
    rw [Literal.element?_ofBits, denotes]
  | _ => cases denotes

theorem makeValue_of_parseValue {repr : String} {base : Nat}
    (denotes : Literal.spelt? repr base sort = some x)
    (done : parseValue repr sort base s = .ok t s') :
    ∃ l, makeValue l sort s = .ok t s' ∧ l.element? sort = some x ∧ l.Trimmed := by
  cases read : Literal.parse repr sort base with
  | error e =>
    rw [parseValue, read] at done
    cases done
  | ok l =>
    obtain ⟨stands, trimmed⟩ := Literal.element?_of_parse read
    rw [parseValue, read] at done
    exact ⟨l, done, stands.trans denotes, trimmed⟩

omit [Engine σ S T] in
theorem of_term_ok {act : Action (Solver σ S T) Term}
    (done : (Answer.term <$> act : Action _ (Answer LogicSort Term)) s = .ok (.term t) s') :
    act s = .ok t s' := by
  cases h : act s with
  | ok u s'' =>
    cases (map_ok h).symm.trans done
    rfl
  | error e s'' => cases (map_error h).symm.trans done

theorem makeValue_of_literal? (names : q.literal? = some (sort, x))
    (done : q.perform s = .ok (.term t) s') :
    ∃ l, makeValue l sort s = .ok t s' ∧ l.element? sort = some x ∧ (q.Trimmed → l.Trimmed) := by
  unfold Request.literal? at names
  split at names
  · rename_i l _
    obtain ⟨_, denotes, same⟩ := Option.map_eq_some_iff.mp names
    cases same
    exact ⟨l, of_term_ok done, denotes, id⟩
  · rename_i b
    cases names
    exact ⟨.bool b, of_term_ok done, rfl, fun _ => trivial⟩
  · rename_i i _
    obtain ⟨_, denotes, same⟩ := Option.map_eq_some_iff.mp names
    cases same
    obtain ⟨l, makes, stands, trimmed⟩ := makeInt_eq (σ := σ) (S := S) (T := T) denotes
    have made : makeInt i sort s = .ok t s' := of_term_ok done
    rw [makes] at made
    exact ⟨l, made, stands, fun _ => trimmed⟩
  · rename_i repr _ base
    obtain ⟨_, denotes, same⟩ := Option.map_eq_some_iff.mp names
    cases same
    obtain ⟨l, made, stands, trimmed⟩ := makeValue_of_parseValue denotes (of_term_ok done)
    exact ⟨l, made, stands, fun _ => trimmed⟩
  · cases names

/-- What is answered is kept as the normal form of a literal that stands for the element. -/
theorem kept_of_literal? [EquivBEq T] [LawfulHashable T] (honoured : K.Honoured start)
    (coherent : s.Coherent K) (names : q.literal? = some (sort, x))
    (done : q.perform s = .ok (.term t) s') :
    Kept K s s' ∧ (s'.session.Has t ∧ t.sort = sort) ∧
      ∃ l, t.kind = .value l ∧ l.normalize sort = .ok l ∧ l.element? sort = some x ∧
        (q.Trimmed → l.Trimmed) := by
  obtain ⟨l, made, denotes, trimmed⟩ := makeValue_of_literal? names done
  obtain ⟨kept, has, same, ⟨l', normal, kind⟩, -⟩ :=
    (keeps_literal honoured coherent l sort).answer made
  exact ⟨kept, ⟨has, same⟩, l', kind, Literal.normalize_normalize normal,
    Literal.element?_normalize denotes normal, fun h =>
      Literal.trimmed_normalize (trimmed h) normal⟩

/-- Two requests for literals in one session, on whatever engine and with whatever happens between
them, answer one node only if they name one element of one sort; and they do if they name one,
provided that bit-vectors that are handed over have no bits set above their width. -/
theorem equal_literals_one_node [EquivBEq T] [LawfulHashable T]
    (run : Run (fun _ : σ => True) s issued)
    (names : q.literal? = some (sort, x)) (names' : q'.literal? = some (sort', x'))
    (done : q.perform s = .ok (.term t) s₁) (between : Continues s₁ s₂)
    (done' : q'.perform s₂ = .ok (.term t') s₃) :
    (t = t' → sort = sort' ∧ x = x') ∧
      (q.Trimmed → q'.Trimmed → sort = sort' → x = x' → t = t') := by
  have honoured := Contract.free_honoured (σ := σ) (S := S) (T := T)
  obtain ⟨kept, ⟨has, sorted⟩, l, kind, normal, denotes, trimmed⟩ :=
    kept_of_literal? honoured (run.coherent honoured).1 names done
  obtain ⟨coherent, extension⟩ := between.coherent honoured kept.coherent
  obtain ⟨kept', ⟨has', sorted'⟩, l', kind', normal', denotes', trimmed'⟩ :=
    kept_of_literal? honoured coherent names' done'
  constructor
  · rintro rfl
    have same : sort = sort' := sorted.symm.trans sorted'
    cases kind.symm.trans kind'
    subst same
    exact ⟨rfl, Option.some.inj (denotes.symm.trans denotes')⟩
  · rintro clear clear' rfl rfl
    have same :=
      Literal.eq_of_element? normal normal' denotes denotes' (trimmed clear) (trimmed' clear')
    have interned := kept'.coherent.canonical.toInterned
    exact interned.eq_of_value (kept'.extension.has t (extension.has t has)) has'
      (sorted.trans sorted'.symm)
      kind (same ▸ kind')

section Nibbles

theorem makeValue_bits_succeeds (s : Solver Enumerator LogicSort Handle)
    (w : UInt64) (bits : Word) :
    Succeeds (makeValue (.bitVec w bits) (.bitVec w)) s fun _ _ => True :=
  makeValue_succeeds (decide_eq_true rfl) rfl (.inr ⟨w.toNat, rfl⟩)

/-- Minus one of four bits, and the greatest hexadecimal digit. -/
theorem equal_literals_one_node_digit :
    ∃ (s s₁ s₂ : Solver Enumerator LogicSort Handle) (t : Term), Run (fun _ => True) s [] ∧
      (Request.makeInt (-1) (.bitVec 4)).perform s = .ok (.term t) s₁ ∧
        (Request.parseValue "f" (.bitVec 4) 16).perform s₁ = .ok (.term t) s₂ := by
  have new : Run (fun _ => True)
      (Solver.new (Enumerator.new "m") {} : Solver Enumerator LogicSort Handle) [] :=
    .new trivial {}
  obtain ⟨t, s₁, made, -⟩ := makeValue_bits_succeeds (Solver.new (Enumerator.new "m") {}) 4 15
  obtain ⟨t', s₂, made', -⟩ := makeValue_bits_succeeds s₁ 4 15
  have done : (Request.makeInt (-1) (.bitVec 4)).perform (Solver.new (Enumerator.new "m") {}) =
      .ok (.term t) s₁ := map_ok made
  have done' : (Request.parseValue "f" (.bitVec 4) 16).perform s₁ =
    .ok (.term t') s₂ := map_ok made'
  have names : (Request.makeInt (-1) (.bitVec 4)).literal? = some (.bitVec 4, .residue 15) := rfl
  have names' : (Request.parseValue "f" (.bitVec 4) 16).literal? =
    some (.bitVec 4, .residue 15) := rfl
  have same := (equal_literals_one_node new names names' done .rest done').2 trivial trivial rfl rfl
  exact ⟨_, s₁, s₂, t, new, done, same ▸ done'⟩

/-- Four bits with a fifth set are not the node of the same four bits. -/
theorem equal_literals_apart :
    ∃ (s s₁ s₂ : Solver Enumerator LogicSort Handle) (t t' : Term) (q q' : Request),
      Run Enumerator.Fresh s [] ∧ q = .command (.makeValue (.bitVec 4 31) (.bitVec 4)) ∧
        q' = .command (.makeValue (.bitVec 4 15) (.bitVec 4)) ∧ q.literal? = q'.literal? ∧
          q.literal? = some (.bitVec 4, .residue 15) ∧ q.perform s = .ok (.term t) s₁ ∧
            q'.perform s₁ = .ok (.term t') s₂ ∧ t ≠ t' := by
  have new : Run Enumerator.Fresh
      (Solver.new (Enumerator.new "m") {} : Solver Enumerator LogicSort Handle) [] :=
    .new (Enumerator.fresh_new "m") {}
  have coherent := (new.coherent Enumerator.contract_honoured).1
  obtain ⟨t, s₁, made, -⟩ := makeValue_bits_succeeds (Solver.new (Enumerator.new "m") {}) 4 31
  obtain ⟨t', s₂, made', -⟩ := makeValue_bits_succeeds s₁ 4 15
  obtain ⟨kept, -, -, ⟨l, normal, kind⟩, -⟩ :=
    (keeps_literal Enumerator.contract_honoured coherent _ _).answer made
  obtain ⟨-, -, -, ⟨l', normal', kind'⟩, -⟩ :=
    (keeps_literal Enumerator.contract_honoured kept.coherent _ _).answer made'
  refine ⟨_, s₁, s₂, t, t', _, _, new, rfl, rfl, rfl, rfl, map_ok made, map_ok made', ?_⟩
  rintro rfl
  cases normal
  cases normal'
  rw [kind] at kind'
  exact absurd kind' (by decide)

end Nibbles

end Solver

end FormulaGraph
