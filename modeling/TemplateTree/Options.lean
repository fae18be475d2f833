import TemplateTree.Fault
import TemplateTree.Position.Past

/-!
# Options

How a reading computes positions, and whether it warns of directives that
leave no node.
-/

namespace TemplateTree

structure Options where
  positionMode : PositionMode := .naive
  reportUnmodeled : Bool := true
  deriving DecidableEq, Repr

/-- Options may be given in full or by their position mode alone, not both. -/
def Options.resolve : Option Options → Option PositionMode → Except Fault Options
  | some _, some _ => .error .twoModes
  | some options, none => .ok options
  | none, some positionMode => .ok { positionMode }
  | none, none => .ok {}

end TemplateTree
