import FormulaGraph.Term

/-!
The written form of a term, in two definitions.

`Term.text` says by recursion what is written; `Term.render` writes it with a stack of its own, so a
term may be as deep as it likes. A node that is shared is written out at each of its places.
-/

namespace FormulaGraph.Term

mutual
/-- An application of a function symbol is written without operator, and an application to nothing
as its operator alone. -/
def text : Term → String
  | ⟨_, _, _, _, .symbol name, _⟩ => name
  | ⟨_, _, _, _, .value l, _⟩ => l.text
  | ⟨_, _, _, sort, .constArray, fill⟩ => s!"((as const {sort}) " ++ firstText fill ++ ")"
  | ⟨_, _, op, _, .application, []⟩ => op.text
  | ⟨_, _, op, _, .application, t :: ts⟩ =>
    (if op.prim = .apply then "(" else "(" ++ op.text ++ " ") ++ t.text ++ restText ts ++ ")"
/-- The text of the first term alone. -/
def firstText : List Term → String
  | [] => ""
  | t :: _ => t.text
/-- Every term is preceded by a blank. -/
def restText : List Term → String
  | [] => ""
  | t :: ts => " " ++ t.text ++ restText ts
end

/-- What is still to be written. -/
inductive Piece where
  | verbatim (s : String)
  | term (t : Term)

namespace Piece

/-- A blank is paid for by the term that follows it. -/
def weight : Piece → Nat
  | verbatim _ => 1
  | term t => 3 * t.size - 1

def weights : List Piece → Nat
  | [] => 0
  | p :: ps => p.weight + weights ps

theorem weights_append (ps qs : List Piece) : weights (ps ++ qs) = weights ps + weights qs := by
  induction ps with
  | nil => simp [weights]
  | cons p ps ih => simp [weights, ih, Nat.add_assoc]

end Piece

/-- The pieces after the opening of an application. -/
def argumentPieces (blankFirst : Bool) : List Term → List Piece
  | [] => []
  | t :: ts =>
    if blankFirst then .verbatim " " :: .term t :: argumentPieces true ts
    else .term t :: argumentPieces true ts

theorem weights_argumentPieces (blankFirst : Bool) (ts : List Term) :
    Piece.weights (argumentPieces blankFirst ts) ≤ 3 * sizes ts := by
  induction ts generalizing blankFirst with
  | nil => simp [argumentPieces, Piece.weights, sizes]
  | cons t ts ih =>
    have := ih true
    have := t.size_pos
    cases blankFirst <;>
      simp_all [argumentPieces, Piece.weights, Piece.weight, sizes] <;> omega

/-- What opens the text of a term, and the pieces that follow it. -/
def opening (t : Term) : String × List Piece :=
  match t.kind with
  | .symbol name => (name, [])
  | .value l => (l.text, [])
  | .constArray =>
    (s!"((as const {t.sort}) ", (t.children.head?.map Piece.term).toList ++ [.verbatim ")"])
  | .application =>
    if t.children.isEmpty then (t.op.text, [])
    else if t.op.prim = .apply then
      ("(", argumentPieces false t.children ++ [.verbatim ")"])
    else ("(" ++ t.op.text, argumentPieces true t.children ++ [.verbatim ")"])

theorem weights_opening (t : Term) : Piece.weights t.opening.2 < 3 * t.size - 1 := by
  have hs := t.size_eq
  unfold opening
  split
  · simp [Piece.weights]; omega
  · simp [Piece.weights]; omega
  · cases hc : t.children with
    | nil => simp [Piece.weights, Piece.weight]; omega
    | cons c cs =>
      rw [hc] at hs
      simp [Piece.weights, Piece.weight, sizes] at hs ⊢
      omega
  · split
    · simp [Piece.weights]; omega
    · split
      · have := weights_argumentPieces false t.children
        simp [Piece.weights, Piece.weights_append, Piece.weight] at this ⊢
        omega
      · have := weights_argumentPieces true t.children
        simp [Piece.weights, Piece.weights_append, Piece.weight] at this ⊢
        omega

/-- Appends the texts of the pieces to what is already written. -/
def write (written : String) : List Piece → String
  | [] => written
  | .verbatim s :: ps => write (written ++ s) ps
  | .term t :: ps => write (written ++ t.opening.1) (t.opening.2 ++ ps)
termination_by ps => Piece.weights ps
decreasing_by
  · simp [Piece.weights, Piece.weight]
  · have := t.weights_opening
    simp [Piece.weights, Piece.weights_append, Piece.weight] at this ⊢
    omega

/-- The written form of a term. -/
def render (t : Term) : String := write "" [.term t]

instance : ToString Term := ⟨render⟩

end FormulaGraph.Term
