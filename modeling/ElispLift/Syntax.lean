import ElispLift.Grammar.Nonterminal
import ElispLift.Text.Split
import ElispLift.Text.Pad

/-!
# Syntax trees

Leaves are instructions, and inner nodes carry a nonterminal. The tokens of a tree, read from left
to right, are the instructions that it covers. A node that an idiom was recognised in remembers it.
-/

namespace ElispLift

/-- The idioms that are recognised in trees. -/
inductive Idiom where
  | notEqual | cxr | flatten | defvar | kbd | andStatement | whenToIf | withCurrentBuffer
  | withTempBuffer | dolist
deriving DecidableEq, Repr

def Idiom.name : Idiom → String
  | notEqual => "not_equal"
  | cxr => "cxr"
  | flatten => "flatten"
  | defvar => "defvar"
  | kbd => "kbd"
  | andStatement => "and_statement"
  | whenToIf => "when_to_if"
  | withCurrentBuffer => "with_current_buffer"
  | withTempBuffer => "with_temp_buffer"
  | dolist => "dolist"

inductive Node where
  | token (i : Instruction)
  | tree (kind : Nonterminal) (children : List Node) (idiom : Option Idiom)

namespace Node

/-- A tree that no idiom made. -/
def plain (kind : Nonterminal) (children : List Node) : Node := tree kind children none

def kind? : Node → Option Nonterminal
  | token _ => none
  | tree kind _ _ => some kind

def token? : Node → Option Instruction
  | token i => some i
  | tree _ _ _ => none

def children : Node → List Node
  | token _ => []
  | tree _ children _ => children

def child? (node : Node) (n : Nat) : Option Node := node.children[n]?

def isKind (node : Node) (kind : Nonterminal) : Bool := node.kind? = some kind

def isOp (node : Node) (op : Opcode) : Bool := (node.token?.map (·.isOp op)).getD false

def name : Node → String
  | token i => i.name
  | tree kind _ _ => kind.name

/-- The node that a path of child numbers leads to. -/
def at? (node : Node) : List Nat → Option Node
  | [] => some node
  | n :: path => (node.child? n).bind (·.at? path)

/-- The expression inside wrappers that hold nothing else. -/
def unwrap : Node → Node
  | tree .expr [only] _ => only.unwrap
  | tree .exprStacked [only] _ => only.unwrap
  | node => node

mutual

/-- The instructions covered, from left to right. -/
def tokens : Node → List Instruction
  | token i => [i]
  | tree _ children _ => tokensOf children

def tokensOf : List Node → List Instruction
  | [] => []
  | node :: rest => node.tokens ++ tokensOf rest

end

mutual

/-- The number of nodes. -/
def size : Node → Nat
  | token _ => 1
  | tree _ children _ => sizeSum children + 1

def sizeSum : List Node → Nat
  | [] => 0
  | node :: rest => node.size + sizeSum rest

end

def firstToken? (node : Node) : Option Instruction := node.tokens.head?

mutual

/-- One line for each node, indented by depth. Children are numbered, trees show how many they have,
and tokens show their instruction. -/
def outline (depth : Nat) (number : String) : Node → String
  | token i =>
    Text.spaces (2 * depth) ++ number ++ String.ofList (Text.trimStart i.toText.toList) ++ "\n"
  | tree kind children idiom =>
    let tag := match idiom with
      | some found => " (transformed by " ++ found.name ++ ")"
      | none => ""
    Text.spaces (2 * depth) ++ number ++ kind.name ++ " (" ++ toString children.length ++ ")" ++
      tag ++ "\n" ++ outlineOf (depth + 1) 0 children

def outlineOf (depth n : Nat) : List Node → String
  | [] => ""
  | node :: rest => node.outline depth (toString n ++ ". ") ++ outlineOf depth (n + 1) rest

end

def toText (node : Node) : String := node.outline 0 ""

instance : ToString Node := ⟨toText⟩

end Node

end ElispLift
