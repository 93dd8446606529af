import FormulaGraph.Proofs.Term.Shape
import FormulaGraph.Term.Text

/-!
The written form of a term is the one that recursion gives. At each moment what will have been
written in the end is what has been written, followed by what the pieces on the stack say; a term
says its text there.
-/

namespace FormulaGraph.Term

namespace Piece

def text : Piece → String
  | verbatim s => s
  | term t => t.text

/-- What the pieces say, one after the other. -/
def texts (ps : List Piece) : String := String.join (ps.map text)

@[simp] theorem texts_nil : texts [] = "" := rfl

@[simp] theorem texts_cons (p : Piece) (ps : List Piece) : texts (p :: ps) = p.text ++ texts ps :=
  String.join_cons

@[simp] theorem texts_append (ps qs : List Piece) : texts (ps ++ qs) = texts ps ++ texts qs := by
  rw [texts, List.map_append]
  exact String.join_append

end Piece

/-- What is written of a node, given what is written of its children. -/
def layout (op : Op) (sort : LogicSort) (kind : TermKind) (children : List String) : String :=
  match kind with
  | .symbol name => name
  | .value l => l.text
  | .constArray => s!"((as const {sort}) " ++ children.headD "" ++ ")"
  | .application =>
    if children = [] then op.text
    else if op.prim = .apply then "(" ++ " ".intercalate children ++ ")"
    else "(" ++ " ".intercalate (op.text :: children) ++ ")"

theorem layout_application {op : Op} {sort : LogicSort} {first : String} {rest : List String} :
    layout op sort .application (first :: rest) =
      if op.prim = .apply then "(" ++ " ".intercalate (first :: rest) ++ ")"
      else "(" ++ " ".intercalate (op.text :: first :: rest) ++ ")" := by
  rw [layout, if_neg (List.cons_ne_nil first rest)]

theorem texts_argumentPieces_true (ts : List Term) :
    Piece.texts (argumentPieces true ts) = restText ts := by
  induction ts with
  | nil => rfl
  | cons t ts ih => simp [argumentPieces, restText, Piece.text, ih, String.append_assoc]

theorem intercalate_texts (t : Term) (ts : List Term) :
    " ".intercalate ((t :: ts).map text) = t.text ++ restText ts := by
  induction ts generalizing t with
  | nil => simp [restText]
  | cons u us ih =>
    rw [List.map_cons, List.map_cons, String.intercalate_cons_cons, ← List.map_cons, ih u, restText]
    simp [String.append_assoc]

theorem text_eq_opening (t : Term) : t.text = t.opening.1 ++ Piece.texts t.opening.2 := by
  obtain ⟨id, session, op, sort, kind, children⟩ := t
  cases kind with
  | symbol name => simp [text, opening]
  | value l => simp [text, opening]
  | constArray =>
    cases children with
    | nil => simp [text, firstText, opening, Piece.text]
    | cons c cs => simp [text, firstText, opening, Piece.text, String.append_assoc]
  | application =>
    cases children with
    | nil => simp [text, opening]
    | cons c cs =>
      by_cases apply : op.prim = .apply
      · simp [text, opening, apply, argumentPieces, texts_argumentPieces_true, Piece.text,
          String.append_assoc]
      · simp [text, opening, apply, argumentPieces, texts_argumentPieces_true, Piece.text,
          String.append_assoc]

/-- The stack means what its pieces say. -/
theorem write_eq (written : String) (ps : List Piece) :
    write written ps = written ++ Piece.texts ps := by
  -- A term on the stack is replaced by its opening, whose pieces say together what the term says.
  fun_induction write written ps with
  | case1 written => simp
  | case2 written s ps ih => simp [ih, Piece.text, String.append_assoc]
  | case3 written t ps ih => simp [ih, Piece.text, text_eq_opening t, String.append_assoc]

theorem text_eq_layout (t : Term) : t.text = layout t.op t.sort t.kind (t.children.map text) := by
  obtain ⟨id, session, op, sort, kind, children⟩ := t
  cases kind with
  | symbol name => rw [text, layout]
  | value l => rw [text, layout]
  | constArray =>
    cases children with
    | nil => simp [text, firstText, layout]
    | cons c cs => simp [text, firstText, layout]
  | application =>
    cases children with
    | nil => simp [text, layout]
    | cons c cs =>
      dsimp only
      rw [text, List.map_cons, layout_application]
      by_cases apply : op.prim = .apply
      · rw [if_pos apply, if_pos apply, ← List.map_cons, intercalate_texts]
        simp [String.append_assoc]
      · rw [if_neg apply, if_neg apply, String.intercalate_cons_cons,
          ← List.map_cons, intercalate_texts]
        simp [String.append_assoc]

theorem map_text_of_shapes {ts us : List Term} (same : us.map shape = ts.map shape)
    (each : ∀ t ∈ ts, ∀ u : Term, u.shape = t.shape → u.text = t.text) :
    us.map text = ts.map text := by
  induction forall₂_of_shapes same with
  | nil => rfl
  | @cons u t us ts head tail ih =>
    rw [List.map_cons, List.map_cons, each t List.mem_cons_self u head]
    rw [ih (List.cons.inj same).2 fun t ht => each t (List.mem_cons_of_mem _ ht)]

/-- Which subtrees are one node makes no difference to the text. -/
theorem text_of_shape {t u : Term} (same : u.shape = t.shape) : u.text = t.text := by
  -- Terms of one shape are laid out alike, around children of one shape.
  induction t generalizing u with
  | node t ih =>
    obtain ⟨op, sort, kind, children⟩ := shape_eq_iff.mp same
    rw [text_eq_layout u, text_eq_layout t, op, sort, kind,
      map_text_of_shapes children fun c hc u => ih c hc]

theorem render_eq (t : Term) : t.render = t.text := by
  rw [render, write_eq]
  simp [Piece.text]

/-- Writing a term by a stack comes to the text that recursion gives it: every node is laid out
around the texts of its children, as deep and as wide as the term may be, and wherever nodes are
shared. -/
theorem render_recursive (t : Term) :
    t.render = t.text ∧ t.text = layout t.op t.sort t.kind (t.children.map text) ∧
      ∀ u : Term, u.shape = t.shape → u.render = t.render := by
  refine ⟨render_eq t, text_eq_layout t, fun u same => ?_⟩
  rw [render_eq, render_eq, text_of_shape same]

end FormulaGraph.Term
