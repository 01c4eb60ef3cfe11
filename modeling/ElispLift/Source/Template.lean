import ElispLift.Source.Page

/-!
# Templates

Most forms are rendered by a template, a list of directives that write text, render children of the
node, move values on the stack, and change the indentation.
-/

namespace ElispLift

inductive Directive where
  | text (s : String)
  | child (n : Nat)
  /-- A child with its constants unquoted. -/
  | unquoted (n : Nat)
  /-- The operand of the first instruction of a child. -/
  | operand (n : Nat)
  /-- Put a child on the stack. -/
  | push (n : Nat)
  /-- Write the value taken from the stack. -/
  | pop
  | indentation
  | indentMore
  | dedent
  | openForm
  | closeForm
deriving DecidableEq, Repr

namespace Directive

/-- A form on lines of its own: its head, and from the next line on a child. -/
def block (head : List Directive) (body : Nat) : List Directive :=
  openForm :: head ++ [text "\n", indentMore, indentation, child body, closeForm]

/-- An assignment of the child `value` to the variable of the child `name`. -/
def setq (name value : Nat) : List Directive :=
  [openForm, text "setq ", operand name, text " ", indentMore, child value, closeForm]

/-- A call with operands in order. -/
def call (name : String) (operands : List Directive) : List Directive :=
  text ("(" ++ name) :: operands.flatMap (fun d => [text " ", d]) ++ [text ")"]

end Directive

namespace Nonterminal

open Directive

/-- The template of a nonterminal, if its nodes are rendered by one. -/
def template? : Nonterminal → Option (List Directive)
  | nullaryExpr => some [.text "(", child 0, .text ")"]
  | ternaryExprStacked =>
    some [.text "(", child 3, .text " ", .pop, .text " ", child 1, .text " ", child 2, .text ")"]
  | setExpr | setExprStacked => some (call "set" [child 0, child 1])
  | setqForm => some (setq 1 0)
  | setqFormDup | setqFormStacked => some (setq 2 0)
  | popExpr => some (call "pop" [operand 0])
  | setBuffer => some (call "set-buffer" [child 0])
  | ifForm =>
    some [openForm, .text "if ", child 0, .text "\n", indentMore, indentMore, indentation, child 2,
      dedent, closeForm]
  | whenMacro => some (block [.text "when ", child 0] 2)
  | andForm => some (call "and" [child 0, child 2])
  | orForm => some (call "or" [child 0, child 2])
  | whileForm1 => some (block [.text "while ", push 0, child 3] 5)
  | whileForm2 => some (block [.text "while ", child 2] 4)
  | unwindProtectForm =>
    some [openForm, .text "unwind-protect\n", indentMore, indentation, child 2, .text "\n",
      indentation, unquoted 0, closeForm]
  | saveExcursionForm => some (block [.text "save-excursion"] 1)
  | saveRestrictionForm => some (block [.text "save-restriction"] 1)
  | saveCurrentBufferForm => some (block [.text "save-current-buffer"] 1)
  | withCurrentBufferMacro => some (block [.text "with-current-buffer ", child 1] 4)
  | withCurrentBufferSafeMacro =>
    some (block [.text "and ", child 0, .text " (", unquoted 3, .text " ", child 4, .text ")"] 11)
  | withTempBufferMacro => some (block [.text "with-temp-buffer"] 0)
  | dolist => some (block [.text "dolist (", operand 0, .text " ", child 1, .text ")"] 2)
  | defvar => some (call "defvar" [unquoted 0, child 1])
  | defconst => some (call "defconst" [unquoted 0, child 1])
  | defvarDoc => some (block [.text "defvar ", unquoted 0, .text " ", child 1] 2)
  | defconstDoc => some (block [.text "defconst ", unquoted 0, .text " ", child 1] 2)
  | kbd => some (call "kbd" [child 0])
  | exprReturn => some [child 0]
  | stackedReturn | optDiscard | optReturn | optLabel | optComeFrom | optComeFroms | comeFroms
  | endClause => some []
  | _ => none

end Nonterminal

namespace Rendering

variable (render : Node → Rendering Unit)

/-- Render a child, or say that it is missing. -/
def child (node : Node) (n : Nat) : Rendering Unit :=
  match node.child? n with
  | some c => render c
  | none => missing node (some n)

/-- The operand of the first instruction of a node. -/
def operandText (node : Node) : String :=
  ((node.firstToken?.bind (·.operand)).map Operand.toText).getD ""

def directive (node : Node) : Directive → Rendering Unit
  | .text s => write s
  | .child n => child render node n
  | .unquoted n =>
    match node.child? n with
    | some c => withUnquoted true (render c)
    | none => missing node (some n)
  | .operand n =>
    match node.child? n with
    | some c => write (operandText c)
    | none => missing node (some n)
  | .push n =>
    match node.child? n with
    | some c => push (.node c)
    | none => do
      issue (.missingChild node.name (some n))
      push (.text missingText)
  | .pop => do write (← pop render)
  | .indentation => do write (← get).indent
  | .indentMore => indentMore
  | .dedent => dedent
  | .openForm => openForm
  | .closeForm => closeForm

def fill (node : Node) : List Directive → Rendering Unit
  | [] => return ()
  | d :: ds => do
    directive render node d
    fill node ds

end Rendering

end ElispLift
