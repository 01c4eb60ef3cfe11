import ElispLift.Proofs.Source.Appending
import ElispLift.Proofs.Source.Layout

/-!
# Conditionals and their jumps

The code of a conditional runs its parts one after another, up to a jump that is taken. The Lisp
form that is written for it runs its parts up to a test that ends the form. What is written for the
parts stands in the form where Lisp runs them in the same order, so the form does what the code does
as long as each test goes on with the truth value with which its jump is not taken.
-/

namespace ElispLift

/-! ### Code -/

/-- The truth value of what a conditional jump tests with which control goes on behind it. -/
def OpKind.goesOn? : OpKind → Option Bool
  | .fixed .gotoIfNil | .fixed .gotoIfNilElsePop => some true
  | .fixed .gotoIfNotNil | .fixed .gotoIfNotNilElsePop => some false
  | _ => none

/-- The truth values with which control goes on behind each conditional jump of a list, in which
other nodes than instructions are left open. A value that is negated before the jump, as an odd
number of operations in front of it does, counts as it was. -/
def OpKind.goesOn (negated : Bool) : List (Option OpKind) → List Bool
  | [] => []
  | some kind :: rest =>
    match kind.goesOn? with
    | some value => (value ^^ negated) :: goesOn false rest
    | none => goesOn (kind = .fixed .not && !negated) rest
  | none :: rest => goesOn false rest

namespace Node

/-- The operation of an instruction. -/
def op? (node : Node) : Option OpKind := node.token?.map (·.kind)

def isConditionalJump (node : Node) : Bool := (node.op?.bind OpKind.goesOn?).isSome

/-- The truth values with which control goes on behind the conditional jumps of a node. -/
def goesOn (node : Node) : List Bool := OpKind.goesOn false (node.children.map op?)

/-- The children of a node, cut at the conditional jumps. -/
def stages (node : Node) : List (List Node) := node.children.splitOnP isConditionalJump

end Node

/-! ### Forms -/

/-- The conditional forms of Lisp: `if` without an else part, `when`, `and` and `or`. -/
inductive ConditionalWord where
  | ifThen | whenThen | allOf | anyOf
deriving DecidableEq, Repr

namespace ConditionalWord

def name : ConditionalWord → String
  | ifThen => "if"
  | whenThen => "when"
  | allOf => "and"
  | anyOf => "or"

/-- The truth value of a test behind which Lisp evaluates the next part. -/
def goesOn : ConditionalWord → Bool
  | ifThen | whenThen | allOf => true
  | anyOf => false

end ConditionalWord

/-- A conditional form with the texts of its parts. All but the last are tests. -/
structure Conditional where
  word : ConditionalWord
  tests : List String
  last : String

namespace Conditional

/-- The text of the form, with some blanks in front of the last part. -/
def text (form : Conditional) (gap : String) : String :=
  "(" ++ form.word.name ++ " " ++ " ".intercalate form.tests ++ gap ++ form.last ++ ")"

end Conditional

namespace Rendering

variable {levels : Nat} {node c : Node} {p p' : Page} {s : String} {n : Nat}
  {d : Directive} {rest : List Directive}

end Rendering

/-! ### How conditionals are laid out -/

namespace Nonterminal

/-- The jumps that the one test of a conditional may have. -/
def jumps : Nonterminal → List Opcode
  | ifForm => [.gotoIfNil, .gotoIfNilElsePop, .gotoIfNotNil]
  | whenMacro => [.gotoIfNil, .gotoIfNilElsePop]
  | andForm => [.gotoIfNilElsePop]
  | orForm => [.gotoIfNotNil, .gotoIfNotNilElsePop]
  | _ => []

/-- The form that a conditional is written as. -/
def word : Nonterminal → ConditionalWord
  | ifForm => .ifThen
  | whenMacro => .whenThen
  | orForm => .anyOf
  | _ => .allOf

end Nonterminal

namespace Node

variable {levels : Nat} {p p' : Page} {kind : Nonterminal} {children : List Node}
  {idiom : Option Idiom} {test jump last : Node} {rest : List Node} {op : Opcode} {value : Bool}

end Node

end ElispLift
