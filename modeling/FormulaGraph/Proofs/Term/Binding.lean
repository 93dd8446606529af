import FormulaGraph.Proofs.Term.Symbols

/-!
Places in a term, and what is bound at them. A node is shared between all places at which it stands,
and one symbol may be bound at one place and free at another, so that binding is a matter of the
path to a place and not of the node that stands there. A path lists the positions among the
children, from the root down.
-/

namespace FormulaGraph.Term

/-- The node that the path leads to, if it does not lead past a closed one. -/
def follow (closed : Term → Bool) (t : Term) : List Nat → Option Term
  | [] => some t
  | i :: p => if closed t then none else t.children[i]?.bind fun c => c.follow closed p

def at? (t : Term) (p : List Nat) : Option Term := t.follow (fun _ => false) p

/-- The node at the end of the path, if rewriting gets there: it does not look below values. -/
def shown? (t : Term) (p : List Nat) : Option Term := t.follow isValue p

def Quantifies (t : Term) : Prop := t.op.prim = .forAll ∨ t.op.prim = .thereExists

/-- The symbols that a quantifier binds: all its children but the last, which is its body. -/
def binders (t : Term) : List Term := t.children.dropLast

/-- Every quantifier of the term binds symbols only. -/
def BindsSymbols (t : Term) : Prop :=
  ∀ q : Term, q.OccursIn t → q.Quantifies → ∀ b ∈ q.binders, b.isSymbol = true

/-- On its way to the place the path passes a quantifier that binds the symbol. -/
def BoundAt (t : Term) (p : List Nat) (x : Term) : Prop :=
  ∃ above i below q, p = above ++ i :: below ∧ t.at? above = some q ∧ q.Quantifies ∧ x ∈ q.binders

variable {closed : Term → Bool} {t q u x : Term} {i : Nat} {p p' : List Nat}

theorem follow_cons_iff : t.follow closed (i :: p) = some x ↔
    closed t = false ∧ ∃ c, t.children[i]? = some c ∧ c.follow closed p = some x := by
  rw [follow]
  cases closed t <;> simp [Option.bind_eq_some_iff]

theorem follow_append :
    t.follow closed (p ++ p') = (t.follow closed p).bind fun u => u.follow closed p' := by
  induction p generalizing t with
  | nil => rfl
  | cons i p ih =>
    rw [List.cons_append, follow, follow]
    cases closed t with
    | true => rfl
    | false => cases t.children[i]? <;> simp [ih]

theorem at?_cons_iff : t.at? (i :: p) = some x ↔ ∃ c, t.children[i]? = some c ∧
    c.at? p = some x := by
  rw [at?, follow_cons_iff]
  simp [at?]

theorem at?_append_of (found : t.at? p = some u) : t.at? (p ++ p') = u.at? p' := by
  rw [at?, at?, follow_append, ← at?, found]
  rfl

theorem shown?_cons_iff : t.shown? (i :: p) = some x ↔
    t.isValue = false ∧ ∃ c, t.children[i]? = some c ∧ c.shown? p = some x :=
  follow_cons_iff

theorem shown?_append_of (found : t.shown? p = some u) : t.shown? (p ++ p') = u.shown? p' := by
  rw [shown?, shown?, follow_append, ← shown?, found]
  rfl

theorem shown?_of_append (shown : t.shown? (p ++ i :: p') = some x) :
    ∃ u, t.shown? p = some u ∧ u.isValue = false ∧ ∃ c, c ∈ u.children := by
  rw [shown?, follow_append, Option.bind_eq_some_iff] at shown
  obtain ⟨u, found, rest⟩ := shown
  obtain ⟨node, c, child, -⟩ := follow_cons_iff.mp rest
  exact ⟨u, found, node, c, List.mem_of_getElem? child⟩

theorem at?_of_shown? (shown : t.shown? p = some x) : t.at? p = some x := by
  induction p generalizing t with
  | nil => exact shown
  | cons i p ih =>
    obtain ⟨-, c, child, shown⟩ := shown?_cons_iff.mp shown
    exact at?_cons_iff.mpr ⟨c, child, ih shown⟩

theorem occursIn_of_at? (found : t.at? p = some x) : x.OccursIn t := by
  induction p generalizing t with
  | nil =>
    cases found
    exact .here
  | cons i p ih =>
    obtain ⟨c, child, found⟩ := at?_cons_iff.mp found
    exact .inChild (List.mem_of_getElem? child) (ih found)

theorem exposed_iff : x.Exposed t ↔ ∃ p, t.shown? p = some x := by
  constructor
  · intro exposed
    induction exposed with
    | here => exact ⟨[], rfl⟩
    | inChild node child _ ih =>
      obtain ⟨i, child⟩ := List.mem_iff_getElem?.mp child
      obtain ⟨p, shown⟩ := ih
      exact ⟨i :: p, shown?_cons_iff.mpr ⟨node, _, child, shown⟩⟩
  · rintro ⟨p, shown⟩
    induction p generalizing t with
    | nil =>
      cases shown
      exact .here
    | cons i p ih =>
      obtain ⟨node, c, child, shown⟩ := shown?_cons_iff.mp shown
      exact .inChild node (List.mem_of_getElem? child) (ih shown)

theorem BindsSymbols.of_occursIn (binds : t.BindsSymbols) (occurs : u.OccursIn t) :
    u.BindsSymbols :=
  fun q hq => binds q (hq.trans occurs)

theorem BoundAt.append (bound : t.BoundAt p x) : t.BoundAt (p ++ p') x := by
  obtain ⟨above, i, below, q, rfl, found, quantifies, member⟩ := bound
  exact ⟨above, i, below ++ p', q, by simp, found, quantifies, member⟩

/-- What is bound somewhere below a node is bound by a quantifier above the node, or by one at or
below it. -/
theorem BoundAt.split (bound : t.BoundAt (p ++ p') x) (found : t.at? p = some u) :
    t.BoundAt p x ∨ u.BoundAt p' x := by
  obtain ⟨above, i, below, q, path, at', quantifies, member⟩ := bound
  obtain ⟨r, rfl, rest⟩ | ⟨r, rfl, rest⟩ := List.append_eq_append_iff.mp path
  · rw [at?_append_of found] at at'
    exact .inr ⟨r, i, below, q, rest, at', quantifies, member⟩
  · cases r with
    | nil =>
      rw [List.append_nil] at found
      rw [at'] at found
      cases found
      exact .inr ⟨[], i, below, u, rest.symm, rfl, quantifies, member⟩
    | cons j r =>
      obtain ⟨rfl, -⟩ := List.cons.inj rest
      exact .inl ⟨above, i, r, q, rfl, at', quantifies, member⟩

end FormulaGraph.Term
