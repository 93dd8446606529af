import FormulaGraph.Error
import Std.Data.HashMap
import Std.Data.HashSet

/-!
The nodes of the enumerating engine, in the order in which they were made.

Nothing is shared: making a term twice makes two nodes. The operands of a node come before it, which
the store keeps as a proof, so whatever runs over operands ends.
-/

namespace FormulaGraph

/-- A term of the enumerating engine, by the position of its node. -/
structure Handle where
  index : Nat
  deriving DecidableEq, Inhabited

namespace Handle

instance : Hashable Handle := ⟨fun h => hash h.index⟩

end Handle

inductive Node where
  | symbol (name : String)
  | value (literal : Literal)
  | constArray (fill : Handle)
  | application (op : Op) (args : List Handle)
  deriving Inhabited

namespace Node

def operands : Node → List Handle
  | symbol _ | value _ => []
  | constArray fill => [fill]
  | application _ args => args

end Node

structure NodeStore where
  nodes : Array (Node × LogicSort)
  operands_lt : ∀ (i : Nat) (h : i < nodes.size), ∀ c ∈ nodes[i].1.operands, c.index < i

namespace NodeStore

def empty : NodeStore := ⟨#[], fun i h => by simp at h⟩

instance : Inhabited NodeStore := ⟨empty⟩

def size (store : NodeStore) : Nat := store.nodes.size

/-- A node with its sort. -/
def find? (store : NodeStore) (t : Handle) : Option (Node × LogicSort) := store.nodes[t.index]?

def find (store : NodeStore) (t : Handle) : Except Error (Node × LogicSort) :=
  match store.find? t with
  | some entry => .ok entry
  | none => .error (.usage (.unknownHandle t.index))

/-- Adds a node whose operands are there already, and names it. -/
def push (store : NodeStore) (node : Node) (sort : LogicSort)
    (known : ∀ c ∈ node.operands, c.index < store.size) : Handle × NodeStore :=
  match store with
  | ⟨nodes, operands_lt⟩ =>
    (⟨nodes.size⟩,
      ⟨nodes.push (node, sort), fun i h c hc => by
        rw [Array.getElem_push] at hc
        split at hc
        · exact operands_lt i ‹_› c hc
        · have := known c hc
          simp only [size] at this
          omega⟩)

/-- The symbols at positions below `n` that occur in the marked nodes, in order. Operands come
before their node, so one sweep from the end marks all that is needed. -/
def sweep (store : NodeStore) : Nat → Std.HashSet Handle → List Handle → List Handle
  | 0, _, found => found
  | n + 1, marked, found =>
    if marked.contains ⟨n⟩ then
      match store.find? ⟨n⟩ with
      | some (.symbol _, _) => store.sweep n marked (⟨n⟩ :: found)
      | some (node, _) => store.sweep n (marked.insertMany node.operands) found
      | none => store.sweep n marked found
    else store.sweep n marked found

/-- The symbols that occur in the roots, each once and in the order in which they were made. -/
def symbolsOf (store : NodeStore) (roots : List Handle) : Except Error (List Handle) :=
  match roots.reverse.find? fun t => store.size ≤ t.index with
  | some t => .error (.usage (.unknownHandle t.index))
  | none => .ok (store.sweep store.size (Std.HashSet.ofList roots) [])

end NodeStore

end FormulaGraph
