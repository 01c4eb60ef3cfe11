import ElispLift.Error
import ElispLift.Source.Form

/-!
# Lisp source

The source of a syntax tree, with what was odd about the tree. A value on the stack is rendered
where it is read, so rendering may enter nodes that are not parts of the node at hand. A loop whose
start value reads itself from the stack has no source.
-/

namespace ElispLift

structure Source where
  text : String
  issues : List Issue

namespace Rendering

/-- Render a node with at most `levels` levels of nodes in one another. -/
def node : (levels : Nat) → Node → Rendering Unit
  | 0, _ => failure
  | levels + 1, n => form (node levels) n

end Rendering

namespace Node

/-- Levels of nodes in one another. The operation of a stacked application may be rendered as its
operand too, so each of the tree's nodes at most doubles what is rendered. Each instruction may read
a value of the stack, which is no larger. -/
def maxLevels (tree : Node) : Nat :=
  let bound := Nat.pow 2 tree.size
  (bound + 1) * bound

/-- The source of a tree, every line of it indented. -/
def render (tree : Node) (indent : String) : Except Error Source :=
  match (Rendering.node tree.maxLevels tree).run (.start indent) with
  | some ((), page) => .ok ⟨Text.spaces page.startColumn ++ page.text, page.issues⟩
  | none => .error .endlessRendering

end Node

end ElispLift
