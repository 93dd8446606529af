import FormulaGraph.Op
import FormulaGraph.LogicSort

/-!
Notices: what a solver reports beside its answers.
-/

namespace FormulaGraph

inductive Notice where
  /-- The engine's sort of an application cannot stand for the derived one. -/
  | reportConflicts (op : Op) (reported derived : LogicSort)
  /-- The engine's sort of an application differs from the derived one, which it may stand for. -/
  | reportDiffers (op : Op) (reported derived : LogicSort)
  | assumptionsHeld (count : Nat)
  deriving DecidableEq

namespace Notice

inductive Level where
  | debug | warn
  deriving DecidableEq

def level : Notice → Level
  | reportConflicts _ _ _ => .warn
  | reportDiffers _ _ _ | assumptionsHeld _ => .debug

def text : Notice → String
  | reportConflicts op reported derived =>
    s!"{op}: engine reported {reported} but the arguments give {derived}"
  | reportDiffers op reported derived => s!"{op}: engine reported {reported}, using {derived}"
  | assumptionsHeld count => s!"assumption cache holds {count} literal(s)"

/-- The notice with its level in front. -/
def line (n : Notice) : String :=
  match n.level with
  | .debug => "debug " ++ n.text
  | .warn => "warn " ++ n.text

end Notice

end FormulaGraph
