import FormulaGraph.Proofs.Error
import FormulaGraph.Proofs.Term.Shape
import FormulaGraph.Term.Text

/-!
Terms that differ by the identifiers and sessions of their nodes alone. A naming says which nodes of
two worlds stand for each other; a term is renamed to another if they have one shape and their nodes
correspond, one by one. What is written of a term depends on its shape only.
-/

namespace FormulaGraph

/-- Nothing on either side corresponds to two things. -/
def OneToOne {ι : Type} (M : ι → ι → Prop) :
    Prop := ∀ i i' j j', M i i' → M j j' → (i' = j' ↔ i = j)

section Matching

variable {ι β β' : Type} {p : Term → ι} {M M' : ι → ι → Prop} {Q Q' : β → β' → Prop}
    {f g : Term → Option β}
  {f' g' : Term → Option β'} {k k' t t' : Term} {v : β} {v' : β'}

/-- What is known of terms on both sides, by something that tells them apart, is known under things
that stand for each other. -/
structure Matching (p : Term → ι) (M : ι → ι → Prop) (Q : β → β' → Prop) (f : Term → Option β)
    (f' : Term → Option β') : Prop where
  forth : ∀ t b, f t = some b → ∃ t' b', M (p t) (p t') ∧ f' t' = some b' ∧ Q b b'
  back : ∀ t' b', f' t' = some b' → ∃ t b, M (p t) (p t') ∧ f t = some b ∧ Q b b'

/-- What is known does not tell terms apart that are the same by this. -/
def Blurred (p : Term → ι) (f : Term → Option β) : Prop := ∀ t u : Term, p t = p u → f t = f u

namespace Matching

theorem empty (left : ∀ t, f t = none) (right : ∀ t, f' t = none) : Matching p M Q f f' := by
  constructor
  · intro t b found
    rw [left] at found
    cases found
  · intro t' b' found'
    rw [right] at found'
    cases found'

theorem imp (matching : Matching p M Q f f') (names : ∀ i i', M i i' → M' i i')
    (values : ∀ b b', Q b b' → Q' b b') : Matching p M' Q' f f' := by
  constructor
  · intro t b found
    obtain ⟨t', b', named, found', related⟩ := matching.forth t b found
    exact ⟨t', b', names _ _ named, found', values b b' related⟩
  · intro t' b' found'
    obtain ⟨t, b, named, found, related⟩ := matching.back t' b' found'
    exact ⟨t, b, names _ _ named, found, values b b' related⟩

theorem lookup (matching : Matching p M Q f f') (single : OneToOne M) (left : Blurred p f)
    (right : Blurred p f') (named : M (p t) (p t')) : Option.Rel Q (f t) (f' t') := by
  cases found : f t with
  | some b =>
    obtain ⟨u', b', named', found', related⟩ := matching.forth t b found
    rw [right t' u' ((single _ _ _ _ named named').mpr rfl), found']
    exact .some related
  | none =>
    cases found' : f' t' with
    | none => exact .none
    | some b' =>
      obtain ⟨u, b, named', known, -⟩ := matching.back t' b' found'
      rw [left t u ((single _ _ _ _ named named').mp rfl), known] at found
      cases found

theorem insert [DecidableEq ι] (matching : Matching p M Q f f') (single : OneToOne M)
    (named : M (p k) (p k')) (related : Q v v')
    (left : ∀ t, g t = if p k = p t then some v else f t)
    (right : ∀ t, g' t = if p k' = p t then some v' else f' t) : Matching p M Q g g' := by
  constructor
  · intro t b found
    rw [left] at found
    by_cases same : p k = p t
    · rw [if_pos same] at found
      cases found
      exact ⟨k', v', same ▸ named, by rw [right, if_pos rfl], related⟩
    · rw [if_neg same] at found
      obtain ⟨t', b', named', found', related'⟩ := matching.forth t b found
      refine ⟨t', b', named', ?_, related'⟩
      rw [right, if_neg (fun same' => same ((single _ _ _ _ named named').mp same')), found']
  · intro t' b' found'
    rw [right] at found'
    by_cases same : p k' = p t'
    · rw [if_pos same] at found'
      cases found'
      exact ⟨k, v, same ▸ named, by rw [left, if_pos rfl], related⟩
    · rw [if_neg same] at found'
      obtain ⟨t, b, named', found, related'⟩ := matching.back t' b' found'
      refine ⟨t, b, named', ?_, related'⟩
      rw [left, if_neg (fun same' => same ((single _ _ _ _ named named').mpr same')), found]

end Matching

end Matching

/-- Which nodes stand for each other. -/
structure Naming where
  nodes : Term → Term → Prop

namespace Naming

/-- Nothing corresponds to anything. -/
def empty : Naming := ⟨fun _ _ => False⟩

/-- Nodes with these identifiers stand for each other. -/
def ids (N : Naming) (i i' : Nat) : Prop := ∃ t t' : Term, N.nodes t t' ∧ t.id = i ∧ t'.id = i'

structure Extends (N N' : Naming) : Prop where
  nodes : ∀ t t', N.nodes t t' → N'.nodes t t'

theorem Extends.ids {N N' : Naming} (extension : Extends N N') (i i' : Nat) (named : N.ids i i') :
    N'.ids i i' := by
  obtain ⟨t, t', node, left, right⟩ := named
  exact ⟨t, t', extension.nodes t t' node, left, right⟩

theorem Extends.refl (N : Naming) : Extends N N := ⟨fun _ _ h => h⟩

theorem Extends.trans {N N' N'' : Naming} (first : Extends N N') (second : Extends N' N'') :
    Extends N N'' :=
  ⟨fun t t' h => second.nodes t t' (first.nodes t t' h)⟩

/-- The nodes on both sides were made in the same order; so none of them goes by two names. -/
def Ordered (N : Naming) : Prop :=
  ∀ i i' j j', N.ids i i' → N.ids j j' → Ord.compare i' j' = Ord.compare i j

theorem Ordered.oneToOne {N : Naming} (ordered : N.Ordered) : OneToOne N.ids := by
  intro i i' j j' first second
  rw [← Nat.compare_eq_eq, ordered i i' j j' first second, Nat.compare_eq_eq]

/-- What is known of the nodes on both sides is known of nodes that stand for each other. -/
abbrev Maps {β β' : Type} (N : Naming) (Q : β → β' → Prop) (f : Term → Option β)
    (f' : Term → Option β') :
    Prop :=
  Matching Term.id N.ids Q f f'

section Tables

variable {β β' : Type} {N : Naming} {Q : β → β' → Prop} {m : Std.HashMap Term β}
    {m' : Std.HashMap Term β'}
  {t t' : Term} {v : β} {v' : β'}

theorem blurred_table (m : Std.HashMap Term β) : Blurred Term.id (m[·]?) :=
  fun _ _ same => Std.HashMap.getElem?_congr (Term.beq_iff.mpr same)

theorem find (maps : N.Maps Q (m[·]?) (m'[·]?)) (ordered : N.Ordered) (named : N.ids t.id t'.id) :
    Option.Rel Q m[t]? m'[t']? :=
  maps.lookup ordered.oneToOne (blurred_table m) (blurred_table m') named

theorem insertTable (maps : N.Maps Q (m[·]?) (m'[·]?)) (ordered : N.Ordered)
    (named : N.ids t.id t'.id)
    (related : Q v v') : N.Maps Q ((m.insert t v)[·]?) ((m'.insert t' v')[·]?) := by
  refine maps.insert ordered.oneToOne named related (fun u => ?_) fun u => ?_
  · simp only [Std.HashMap.getElem?_insert, Term.beq_iff]
  · simp only [Std.HashMap.getElem?_insert, Term.beq_iff]

end Tables

end Naming

theorem optionRel_imp {α β : Type} {R Q : α → β → Prop} {o : Option α} {o' : Option β}
    (related : Option.Rel R o o') (weaker : ∀ a b, R a b → Q a b) : Option.Rel Q o o' := by
  cases related with
  | some related => exact .some (weaker _ _ related)
  | none => exact .none

theorem forall₂_of_mem {α β : Type} {R Q : α → β → Prop} {as : List α} {bs : List β}
    (related : List.Forall₂ R as bs) (each : ∀ a ∈ as, ∀ b, R a b → Q a b) :
    List.Forall₂ Q as bs := by
  have same : List.Forall₂ Eq as as := List.forall₂_refl as
  exact forall₂_join same related fun a ha a' b same related => same ▸ each a ha b (same ▸ related)

namespace Term

/-- The second term is the first one under other names. -/
inductive Renamed (N : Naming) : Term → Term → Prop
  | node {t t' : Term} (nodes : N.nodes t t') (op : t'.op = t.op) (sort : t'.sort = t.sort)
    (kind : t'.kind = t.kind) (children : List.Forall₂ (Renamed N) t.children t'.children) :
    Renamed N t t'

namespace Renamed

variable {N N' : Naming} {t t' : Term} {ts ts' : List Term}

theorem nodes (renamed : Renamed N t t') : N.nodes t t' := by
  cases renamed with
  | node nodes => exact nodes

theorem id (renamed : Renamed N t t') : N.ids t.id t'.id := ⟨t, t', renamed.nodes, rfl, rfl⟩

theorem op (renamed : Renamed N t t') : t'.op = t.op := by
  cases renamed with
  | node _ op => exact op

theorem sort (renamed : Renamed N t t') : t'.sort = t.sort := by
  cases renamed with
  | node _ _ sort => exact sort

theorem kind (renamed : Renamed N t t') : t'.kind = t.kind := by
  cases renamed with
  | node _ _ _ kind => exact kind

theorem children (renamed : Renamed N t t') : List.Forall₂ (Renamed N) t.children t'.children := by
  cases renamed with
  | node _ _ _ _ children => exact children

theorem shape (renamed : Renamed N t t') : t'.shape = t.shape := by
  induction t generalizing t' with
  | node t ih =>
    refine shape_eq_iff.mpr ⟨renamed.op, renamed.sort, renamed.kind, ?_⟩
    rw [← List.forall₂_eq_eq_eq, List.forall₂_map_left_iff, List.forall₂_map_right_iff]
    refine (forall₂_of_mem renamed.children fun c hc c' renamed => ?_).flip
    exact ih c hc renamed

theorem isSymbol (renamed : Renamed N t t') : t'.isSymbol = t.isSymbol := by
  rw [Term.isSymbol, Term.symbolName?, renamed.kind, Term.isSymbol, Term.symbolName?]

theorem extend (renamed : Renamed N t t') (extension : N.Extends N') : Renamed N' t t' := by
  induction t generalizing t' with
  | node t ih =>
    refine .node (extension.nodes _ _ renamed.nodes) renamed.op renamed.sort renamed.kind ?_
    exact forall₂_of_mem renamed.children fun c hc c' renamed => ih c hc renamed

theorem node_of_occursIn {a : Term} (renamed : Renamed N t t') (occurs : a.OccursIn t) :
    ∃ a', N.nodes a a' := by
  induction occurs generalizing t' with
  | here => exact ⟨t', renamed.nodes⟩
  | inChild child _ ih =>
    obtain ⟨c', -, renamed⟩ := exists_of_forall₂ renamed.children.flip child
    exact ih renamed

theorem extend_all (renamed : List.Forall₂ (Renamed N) ts ts') (extension : N.Extends N') :
    List.Forall₂ (Renamed N') ts ts' :=
  renamed.imp fun _ _ renamed => renamed.extend extension

theorem sorts (renamed : List.Forall₂ (Renamed N) ts ts') :
    ts'.map Term.sort = ts.map Term.sort := by
  rw [← List.forall₂_eq_eq_eq, List.forall₂_map_left_iff, List.forall₂_map_right_iff]
  exact (renamed.imp fun _ _ renamed => renamed.sort.symm).flip.imp fun _ _ same => same.symm

end Renamed

section Text

variable {t u : Term} {ts us : List Term}

/-- Both pieces are written alike. -/
inductive Piece.Same : Piece → Piece → Prop
  | verbatim (s : String) : Same (.verbatim s) (.verbatim s)
  | term {t u : Term} (shape : t.shape = u.shape) : Same (.term t) (.term u)

theorem argumentPieces_same (blankFirst : Bool)
    (same : List.Forall₂ (fun t u => t.shape = u.shape) ts us) :
    List.Forall₂ Piece.Same (argumentPieces blankFirst ts) (argumentPieces blankFirst us) := by
  induction same generalizing blankFirst with
  | nil => exact .nil
  | cons first _ ih =>
    cases blankFirst with
    | false => exact .cons (.term first) (ih true)
    | true => exact .cons (.verbatim " ") (.cons (.term first) (ih true))

theorem opening_same (shape : t.shape = u.shape) :
    t.opening.1 = u.opening.1 ∧ List.Forall₂ Piece.Same t.opening.2 u.opening.2 := by
  obtain ⟨op, sort, kind, shapes⟩ := shape_eq_iff.mp shape
  have children := forall₂_of_shapes shapes
  have closing := List.Forall₂.cons (Piece.Same.verbatim ")") .nil
  unfold opening
  rw [kind, op, sort]
  cases u.kind with
  | symbol name | value l => exact ⟨rfl, .nil⟩
  | constArray =>
    refine ⟨rfl, ?_⟩
    generalize t.children = ts, u.children = us at children
    cases children with
    | nil => exact closing
    | cons first _ => exact .cons (.term first) closing
  | application =>
    generalize t.children = ts, u.children = us at children
    have pieces := fun blankFirst =>
      List.rel_append (argumentPieces_same blankFirst children) closing
    cases children with
    | nil => exact ⟨rfl, .nil⟩
    | cons =>
      dsimp only [List.isEmpty_cons]
      split
      · exact ⟨rfl, .nil⟩
      · split
        · exact ⟨rfl, pieces false⟩
        · exact ⟨rfl, pieces true⟩

theorem write_same (written : String) (ps qs : List Piece) (same : List.Forall₂ Piece.Same ps qs) :
    write written ps = write written qs := by
  induction written, ps using write.induct generalizing qs with
  | case1 written =>
    cases same
    rfl
  | case2 written s ps ih =>
    cases same with
    | cons first rest =>
      cases first
      rw [write, write, ih _ rest]
  | case3 written t ps ih =>
    cases same with
    | cons first rest =>
      cases first with
      | term shape =>
        obtain ⟨opened, pieces⟩ := opening_same shape
        rw [write, write, ← opened]
        exact ih _ (List.rel_append pieces rest)

/-- The text of a term tells nothing but its shape. -/
theorem render_same (shape : t.shape = u.shape) : t.render = u.render :=
  write_same "" [.term t] [.term u] (.cons (.term shape) .nil)

end Text

end Term

/-- The sorts and operators that are in use. -/
structure Vocabulary where
  sorts : LogicSort → Prop
  ops : Op → Prop

/-- Any sort and any operator may be used. -/
def Vocabulary.full : Vocabulary := ⟨fun _ => True, fun _ => True⟩

/-- Only sorts and operators of the vocabulary occur at the nodes of the term. -/
def Term.Within (V : Vocabulary) (t : Term) : Prop :=
  ∀ a : Term, a.OccursIn t → V.sorts a.sort ∧ V.ops a.op

/-- The terms are the same under different names, and of the vocabulary. -/
structure Vocabulary.Pair (V : Vocabulary) (N : Naming) (t t' : Term) : Prop where
  renamed : t.Renamed N t'
  within : t.Within V

namespace Vocabulary.Pair

variable {V : Vocabulary} {N N' : Naming} {t t' : Term} {ts ts' : List Term}

theorem extend (pair : V.Pair N t t') (extension : N.Extends N') : V.Pair N' t t' :=
  ⟨pair.renamed.extend extension, pair.within⟩

theorem extend_all (pairs : List.Forall₂ (V.Pair N) ts ts') (extension : N.Extends N') :
    List.Forall₂ (V.Pair N') ts ts' :=
  pairs.imp fun _ _ pair => pair.extend extension

theorem children (pair : V.Pair N t t') : List.Forall₂ (V.Pair N) t.children t'.children :=
  forall₂_of_mem pair.renamed.children fun _ hc _ renamed =>
    ⟨renamed, fun a occurs => pair.within a (.inChild hc occurs)⟩

theorem sort_mem (pair : V.Pair N t t') : V.sorts t.sort := (pair.within t .here).1

theorem op_mem (pair : V.Pair N t t') : V.ops t.op := (pair.within t .here).2

theorem render (pair : V.Pair N t t') : t'.render = t.render := Term.render_same pair.renamed.shape

theorem isValue (pair : V.Pair N t t') : t'.isValue = t.isValue := by
  rw [Term.isValue, pair.renamed.kind, Term.isValue]

end Vocabulary.Pair

end FormulaGraph
