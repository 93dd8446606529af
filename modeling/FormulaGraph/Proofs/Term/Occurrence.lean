import FormulaGraph.Term

/-!
Occurrence of a node in the graph below a term, and the two ways in which identifiers keep such a
graph from running in circles: no node shares its identifier with one below it, and, which implies
this, every child has a smaller identifier than its parent.
-/

namespace FormulaGraph.Term

theorem size_le_sizes {t : Term} {ts : List Term} (ht : t ∈ ts) : t.size ≤ sizes ts := by
  induction ts with
  | nil => cases ht
  | cons u us ih =>
    rw [sizes]
    cases List.mem_cons.mp ht with
    | inl same =>
      rw [same]
      omega
    | inr ht =>
      have := ih ht
      omega

@[elab_as_elim, induction_eliminator]
theorem induct {P : Term → Prop} (node : ∀ t, (∀ c ∈ t.children, P c) → P t) (t : Term) : P t :=
  node t fun c _ => induct node c
termination_by t.size
decreasing_by
  have := size_le_sizes ‹c ∈ t.children›
  have := t.size_eq
  omega

theorem isSymbol_iff {t : Term} : t.isSymbol = true ↔ ∃ name, t.kind = .symbol name := by
  rw [isSymbol, symbolName?]
  cases t.kind <;> simp

/-- The first term is a node of the graph of the second. -/
inductive OccursIn (a : Term) : Term → Prop
  | here : OccursIn a a
  | inChild {t c : Term} (child : c ∈ t.children) (occurs : OccursIn a c) : OccursIn a t

theorem occursIn_iff {a t : Term} : a.OccursIn t ↔ a = t ∨ ∃ c ∈ t.children, a.OccursIn c := by
  constructor
  · intro occurs
    cases occurs with
    | here => exact .inl rfl
    | inChild child occurs => exact .inr ⟨_, child, occurs⟩
  · rintro (rfl | ⟨c, child, occurs⟩)
    · exact .here
    · exact .inChild child occurs

theorem OccursIn.trans {a b t : Term} (lower : a.OccursIn b) (upper : b.OccursIn t) :
    a.OccursIn t := by
  induction upper with
  | here => exact lower
  | inChild child _ ih => exact .inChild child ih

theorem OccursIn.child {c t u : Term} (occurs : t.OccursIn u) (child : c ∈ t.children) :
    c.OccursIn u :=
  OccursIn.trans (.inChild child .here) occurs

/-- No node has the identifier of a node below it. -/
def Acyclic (t : Term) : Prop :=
  ∀ a : Term, a.OccursIn t → ∀ c ∈ a.children, ∀ b : Term, b.OccursIn c → b.id ≠ a.id

theorem Acyclic.of_occursIn {a t : Term} (acyclic : t.Acyclic) (occurs : a.OccursIn t) :
    a.Acyclic :=
  fun b hb => acyclic b (hb.trans occurs)

theorem Acyclic.child {c t : Term} (acyclic : t.Acyclic) (child : c ∈ t.children) : c.Acyclic :=
  acyclic.of_occursIn (.inChild child .here)

theorem OccursIn.size_le {a t : Term} (occurs : a.OccursIn t) : a.size ≤ t.size := by
  induction occurs with
  | here => exact Nat.le_refl _
  | @inChild t c child _ ih =>
    have := size_le_sizes child
    have := t.size_eq
    omega

/-- Every child was made before its parent. -/
def Ordered (t : Term) : Prop :=
  ∀ a : Term, a.OccursIn t → ∀ c ∈ a.children, c.id < a.id

theorem Ordered.of_occursIn {a t : Term} (ordered : t.Ordered) (occurs : a.OccursIn t) :
    a.Ordered :=
  fun b hb => ordered b (hb.trans occurs)

theorem Ordered.id_le {a t : Term} (ordered : t.Ordered) (occurs : a.OccursIn t) :
    a.id ≤ t.id := by
  induction occurs with
  | here => exact Nat.le_refl _
  | inChild child _ ih =>
    have upper := ordered _ .here _ child
    have lower := ih (ordered.of_occursIn (.inChild child .here))
    omega

theorem Ordered.acyclic {t : Term} (ordered : t.Ordered) : t.Acyclic := by
  intro a ha c hc b hb
  have upper := ordered a ha c hc
  have lower := (ordered.of_occursIn (ha.child hc)).id_le hb
  omega

theorem ordered_of_children {t : Term} (smaller : ∀ c ∈ t.children, c.id < t.id)
    (ordered : ∀ c ∈ t.children, c.Ordered) : t.Ordered := by
  intro a ha
  cases ha with
  | here => exact smaller
  | inChild child occurs => exact ordered _ child a occurs

end FormulaGraph.Term
